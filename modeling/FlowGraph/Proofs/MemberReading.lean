import FlowGraph.Proofs.DataUnfolding
import FlowGraph.Proofs.ExpressionReading
import FlowGraph.Proofs.MemberGrammar

/-! The terms that data trees stand for, and how their texts read. Parentheses are put around a base
before a member is taken of it only if a blank stands outside brackets and quotes. So a negation and
a negative number get none, and what is read is the member of what their sign stands before. -/
namespace FlowGraph

/-! ### Values -/

namespace Number

theorem signed_ofMagnitude {m : Nat} (hm : m < signWeight) (negative : Bool) :
    (ofMagnitude negative m).negative = negative ∧ (ofMagnitude negative m).magnitude = m := by
  cases negative with
  | false => exact (magnitude_ofMagnitude hm).symm
  | true =>
    have hsize : UInt64.size = 2 * signWeight := by decide
    have hbits : (ofMagnitude true m).bits.toNat = signWeight + m := by
      simp only [ofMagnitude, if_true]
      exact UInt64.toNat_ofNat_of_lt (by omega)
    rw [magnitude, Number.negative, hbits]
    exact ⟨decide_eq_true (by omega), by rw [Nat.add_mod_left, Nat.mod_eq_of_lt hm]⟩

theorem neg_ofMagnitude {m : Nat} (hm : m < signWeight) (negative : Bool) :
    (ofMagnitude negative m).neg = ofMagnitude (!negative) m := by
  obtain ⟨hnegative, hmagnitude⟩ := signed_ofMagnitude hm negative
  rw [neg, hnegative, hmagnitude]

end Number

/-- The sign of a decimal does not change its magnitude. -/
theorem Decimal.exists_magnitude (d : Decimal) :
    ∃ m < Number.signWeight, ∀ negative, d.toNumber negative = .ofMagnitude negative m := by
  have hinfinite : Number.infiniteMagnitude < Number.signWeight := by decide
  have hnearest : ∀ n k, Number.nearestMagnitude n k < Number.signWeight := fun n k =>
    Nat.lt_of_le_of_lt (Nat.min_le_left _ _) hinfinite
  simp only [toNumber]
  split_ifs
  · exact ⟨0, by decide, fun _ => rfl⟩
  · exact ⟨_, hinfinite, fun _ => rfl⟩
  · exact ⟨0, by decide, fun _ => rfl⟩
  · exact ⟨_, hnearest _ _, fun _ => rfl⟩
  · exact ⟨_, hnearest _ _, fun _ => rfl⟩

namespace Term

open Operand Text

/-- A negative number is written with a sign. -/
def ofNumber (n : Number) : Term :=
  if n.negative then prefixed .minus (literal (.number n.neg)) else literal (.number n)

/-- A value as it is written, with its numbers in their canonical form. -/
def ofValue (v : Value) : Term := v.canonical.number?.elim (literal v.canonical) ofNumber

theorem leaf_unsigned {cs : List Char} {value : Bool → Number} (h : Expression.Unsigned cs value) :
    Leaf cs (literal (.number (value false))) := by
  refine .literal (.word (.number ?_)) fun hhead => ?_
  · rcases h with ⟨rfl, rfl⟩ | ⟨d, numeral, rfl⟩
    · exact .infinite
    · exact .unsigned numeral
  · obtain ⟨c, rest, rfl, hc⟩ := h.exists_cons
    obtain rfl := Option.some.inj hhead
    exact absurd hc (by decide)

theorem spelt_ofNumber {cs : List Char} {n : Number} (h : Script.Spelled Number.sourceLayout cs n) :
    Spelt cs (ofNumber n) := by
  rcases Expression.spelled_cases h with ⟨rfl, rfl⟩ | ⟨negative, rest, value, rfl, hunsigned, rfl⟩
  · exact .leaf (.literal (.word (.number .nan)) (by decide))
  · obtain ⟨m, hm, hvalue⟩ : ∃ m < Number.signWeight, ∀ b, value b = .ofMagnitude b m := by
      rcases hunsigned with ⟨-, rfl⟩ | ⟨d, -, rfl⟩
      · exact ⟨_, by decide, fun _ => rfl⟩
      · exact d.exists_magnitude
    have hleaf := leaf_unsigned hunsigned
    rw [hvalue] at hleaf ⊢
    cases negative with
    | false => simpa [ofNumber, Number.signed_ofMagnitude hm] using Spelt.leaf hleaf
    | true =>
      simpa [ofNumber, Number.signed_ofMagnitude hm,
        Number.neg_ofMagnitude hm] using Spelt.minus hleaf

theorem spelt_source (v : Value) : Spelt v.source.toList (ofValue v) := by
  have hleaf := Expression.leaf_source v
  cases v with
  | number n => exact spelt_ofNumber (Script.spelled_toText _ n)
  | bool b => exact .leaf (.literal hleaf (by cases b <;> decide))
  | text s => exact .leaf (.literal hleaf (by simp [Value.source, quote]))
  | vector ns => exact .leaf (.literal hleaf (by simp [Value.source, Value.bracketed]))

theorem settle_ofValue (v : Value) : (ofValue v).settle = ofValue v := by
  refine (settle_eq_self_iff _).2 ?_
  cases v with
  | number n =>
    show (ofNumber n.canonical).upright = true
    unfold ofNumber
    split <;> rfl
  | _ => rfl

end Term

/-! ### Terms of data trees -/

instance (s : String) : Decidable (Module.IsName s) :=
  decidable_of_iff (s.toList.all Text.isNameChar = true ∧
    s.toList.head?.any (fun c => !Text.isNumeral c) = true) (by
    rw [Module.IsName]
    cases s.toList.head? <;> simp)

namespace Shape

def ofType? (type : String) : Option Shape := (types.find? (·.1 == type)).map Prod.snd

theorem mem_types_of_ofType? {type : String} {shape : Shape} (h : ofType? type = some shape) :
    (type, shape) ∈ types := by
  obtain ⟨p, hfind, rfl⟩ := Option.map_eq_some_iff.1 h
  have htype : p.1 = type := by simpa using List.find?_some hfind
  exact htype ▸ List.mem_of_find?_eq_some hfind

def operandTerm (node : Node Graph) (inputs : List (Option Term)) (index : Nat) (field : String)
    (fallback : Value) :
    Term := inputs[index]?.join.getD (.ofValue ((node.fields.get? field).getD fallback))

def term (node : Node Graph) (inputs : List (Option Term)) (shape : Shape) : Term :=
  shape.casesOn (motive := fun _ => Term)
    (fun default => .ofValue ((node.fields.get? "value").getD default))
    (.member (.name "this") (Template.fieldText node "name" "value"))
    (.vector (operandTerm node inputs 0 "x" Template.zero)
      (operandTerm node inputs 1 "y" Template.zero) (operandTerm node inputs 2 "z" Template.zero))
    (.prefixed .bang (operandTerm node inputs 0 "value" (.bool false)))
    (fun op => .binary op (operandTerm node inputs 0 "a" op.fallback)
      (operandTerm node inputs 1 "b" op.fallback))

def arity (shape : Shape) : Nat :=
  shape.casesOn (motive := fun _ => Nat) (fun _ => 0) 0 3 1 fun _ => 2

end Shape

namespace Outlet

/-- The value at an output of a pure node: the member that the output names, unless the node has no
other value. -/
def part (o : Outlet) (base : Term) : Term :=
  if 1 < o.node.dataOutputs then .member base o.label else base

def pureTerm? (o : Outlet) (inputs : List (Option Term)) : Option Term :=
  if o.node.type = Template.splitVector.type then
    some (inputs[0]?.join.getD
      (.vector (.ofValue Template.zero) (.ofValue Template.zero) (.ofValue Template.zero)))
  else (Shape.ofType? o.node.type).map (Shape.term o.node inputs)

def arity (o : Outlet) : Nat :=
  if o.node.type = Template.splitVector.type then 1
  else ((Shape.ofType? o.node.type).map Shape.arity).getD 0

/-- The term for the value of a flow node: a parameter of an event, a variable, or a member of
one. -/
def resultTerm? (path : List NodeId) (o : Outlet) : Option Term :=
  if o.node.type ∈ eventTypes then some (.name o.label)
  else if o.node.type ∈ variableTypes then some (.name (Scope.variableAt (path, o.node.id)))
  else if 1 < o.node.dataOutputs then
    some (.member (.name (Scope.variableAt (path, o.node.id))) o.label)
  else none

/-- The label of an output is a name where it is written. -/
def legibleLabel (o : Outlet) : Bool := decide (1 < o.node.dataOutputs → Module.IsName o.label)

def legibleResult (o : Outlet) : Bool :=
  if o.node.type ∈ eventTypes then decide (Module.IsName o.label ∧ o.label ∉ Expression.valueWords)
  else decide (o.node.type ∈ variableTypes) || o.legibleLabel

def legiblePure (o : Outlet) : Bool :=
  o.legibleLabel && decide (Shape.ofType? o.node.type = some .property →
    Module.IsName (Template.fieldText o.node "name" "value"))

end Outlet

namespace DataTree

def term (path : List NodeId) : DataTree → Option Term :=
  fold none (Outlet.resultTerm? path) fun o terms => (o.pureTerm? terms).map o.part

/-- Whether all that the text writes by name has a name. -/
def legible : DataTree → Bool :=
  fold true Outlet.legibleResult fun o inputs => o.legiblePure && (inputs.take o.arity).all id

theorem term_pure (path : List NodeId) (o : Outlet) (inputs : List DataTree) :
    (pure o inputs).term path = (o.pureTerm? (inputs.map (term path))).map o.part :=
  fold_pure _ _ _ o inputs

theorem legible_pure (o : Outlet) (inputs : List DataTree) :
    (pure o inputs).legible = (o.legiblePure && (inputs.take o.arity).all legible) := by
  rw [legible, fold_pure, ← List.map_take, List.all_map]
  rfl

end DataTree

/-! ### Texts of terms -/

/-- A text is written for the settled term, and there is none where there is no term. -/
def Tells : Option String → Option Term → Prop :=
  Option.Rel fun text e => Term.Spelt text.toList e.settle

section Emission

open Term

variable {texts : List (Option String)} {terms : List (Option Term)} (varName : String)
  (node : Node Graph)

theorem spelt_inputOr {index : Nat} (h : Tells texts[index]?.join terms[index]?.join)
    (field : String) (fallback : Value) :
    Spelt ((⟨texts, [], varName⟩ : Emission).inputOr index node field fallback.source).toList
      (Shape.operandTerm node terms index field fallback).settle := by
  rw [Emission.inputOr, Emission.input?, Shape.operandTerm]
  generalize texts[index]?.join = text at h
  generalize terms[index]?.join = term at h
  cases h with
  | some h => exact h
  | none => cases hfield : node.fields.get? field <;> simpa [settle_ofValue] using spelt_source _

theorem spelt_shape {shape : Shape}
    (hname : shape = .property → Module.IsName (Template.fieldText node "name" "value"))
    (h : ∀ index < shape.arity, Tells texts[index]?.join terms[index]?.join) :
    Spelt ((shape.template node.type).emit node ⟨texts, [], varName⟩).toList
      (shape.term node terms).settle := by
  cases shape with
  | literal default =>
    show Spelt _ (ofValue _).settle
    rw [settle_ofValue]
    exact spelt_source _
  | property =>
    have hthis : Spelt "this".toList (.name "this") := .leaf (.name (by decide +kernel) (by decide))
    have hwrap : Expression.wrap "this".toList = "this".toList := by decide
    have hspelt := hthis.member (hname rfl)
    rw [hwrap] at hspelt
    show Spelt ("this." ++ Template.fieldText node "name" "value").toList _
    rw [String.toList_append]
    exact hspelt
  | vector =>
    have hinput :=
      fun index hindex field => spelt_inputOr varName node (h index hindex) field Template.zero
    rw [Expression.source_zero] at hinput
    have hspelt :=
      Spelt.vector (hinput 0 (by decide) "x") (hinput 1 (by decide) "y") (hinput 2 (by decide) "z")
    simpa [Shape.template, Template.vector3, Template.basic, Shape.term, settle] using hspelt
  | negation =>
    have hspelt := (spelt_inputOr varName node (h 0 (by decide)) "value" (.bool false)).negation
    rw [show (Value.bool false).source = "false" from rfl] at hspelt
    simpa [Shape.template, Template.negation, Template.basic, Expression.toList_operand, Shape.term,
      settle] using hspelt
  | binary op =>
    have hinput :=
      fun index hindex field => spelt_inputOr varName node (h index hindex) field op.fallback
    have hspelt :=
      Spelt.binary op (hinput 0 (by simp [Shape.arity]) "a") (hinput 1 (by simp [Shape.arity]) "b")
    simpa [Shape.template, Template.binary, Template.basic, Expression.toList_operand,
      Operator.toList_symbol, Shape.term, settle] using hspelt

theorem spelt_split (h : Tells texts[0]?.join terms[0]?.join) :
    Spelt (Template.splitVector.emit node ⟨texts, [], varName⟩).toList
      (terms[0]?.join.getD (Term.vector (.ofValue Template.zero) (.ofValue Template.zero)
        (.ofValue Template.zero))).settle := by
  have hemit : Template.splitVector.emit node ⟨texts, [], varName⟩ =
      texts[0]?.join.getD "vec3(0, 0, 0)" := rfl
  have hzero := spelt_source Template.zero
  rw [hemit]
  generalize texts[0]?.join = text at h
  generalize terms[0]?.join = term at h
  cases h with
  | some h => exact h
  | none =>
    rw [Expression.source_zero] at hzero
    simp only [Option.getD_none, settle, settle_ofValue]
    exact Spelt.vector hzero hzero hzero

end Emission

/-! ### Standard types -/

theorem Shape.exists_of_pure {type : String} {t : Template}
    (h : Catalog.standard.find? type = some t) (hpure : t.isPure = true)
    (hsplit : type ≠ Template.splitVector.type) : ∃ shape, ofType? type = some shape := by
  have hall : (Template.standard.all fun t =>
      !t.isPure || t.type == Template.splitVector.type || (ofType? t.type).isSome) = true := by
        decide +kernel
  obtain ⟨hmem, rfl⟩ := Catalog.find?_eq_some_iff.1 h
  have hkind := List.all_eq_true.1 hall t hmem
  exact Option.isSome_iff_exists.1 (by simpa [hpure, hsplit] using hkind)

theorem Template.standard_access_eq_none :
    ∀ t ∈ standard, t.type ∉ eventTypes → t.type ∉ variableTypes →
    (∀ node base label, t.access node base label = none) ∧ t.single = false := by
  simp only [standard, List.forall_mem_cons, List.not_mem_nil, false_imp_iff,
    implies_true, and_true]
  and_intros <;>
    simp [event, customEvent, literal, vector3, splitVector, getProperty, negation, setProperty,
      log, branch, forLoop, callMethod, structural, binary, basic, eventTypes, variableTypes]

theorem Catalog.find?_splitVector :
    Catalog.standard.find? Template.splitVector.type = some Template.splitVector :=
  find?_eq_some_iff.2 ⟨by simp [Template.standard], rfl⟩

namespace Outlet

open Term

variable {o : Outlet} {template : Template}

theorem spelt_reach (haccess : ∀ base label, template.access o.node base label = none)
    (hlegible : o.legibleLabel = true) {base : String} {e : Term} (h : Spelt base.toList e.settle) :
    Spelt (o.reach template base).toList (o.part e).settle := by
  by_cases hmany : 1 < o.node.dataOutputs
  · have hspelt := h.member (of_decide_eq_true hlegible hmany)
    simpa [reach, part, hmany, haccess, memberOf, Expression.toList_operand, settle] using hspelt
  · simpa [reach, part, hmany] using h

theorem spelt_variable (path : List NodeId) (id : NodeId) :
    Spelt (Scope.variableAt (path, id)).toList (.name (Scope.variableAt (path, id))) :=
  .leaf (.name (Scope.isName_variableAt _) (Scope.variableAt_not_mem_valueWords _))

theorem tells_result {g : Graph} {path : List NodeId}
    (htemplate : Catalog.standard.find? o.node.type = some template)
    (hlegible : o.legibleResult = true) :
    Tells (Checked.access ⟨.standard, g, Scope.stemAt path⟩ template o.node o.label)
      (o.resultTerm? path) := by
  have hvariable : Scope.varName ⟨.standard, g, Scope.stemAt path⟩ o.node.id = Scope.variableAt
      (path, o.node.id) := rfl
  rw [Checked.access, hvariable]
  by_cases hevent : o.node.type ∈ eventTypes
  · obtain ⟨t, ht, -, haccess⟩ := find?_of_mem_eventTypes hevent
    obtain rfl := Option.some.inj (ht.symm.trans htemplate)
    simp only [legibleResult, hevent, if_true, decide_eq_true_eq] at hlegible
    simp only [resultTerm?, hevent, if_true, haccess, Option.some_or]
    exact .some (.leaf (.name hlegible.1 hlegible.2))
  by_cases hlocal : o.node.type ∈ variableTypes
  · obtain ⟨t, ht, -, hsingle, haccess⟩ := find?_of_mem_variableTypes hlocal
    obtain rfl := Option.some.inj (ht.symm.trans htemplate)
    simp only [resultTerm?, hevent, hlocal, if_true, if_false, haccess, hsingle, Option.none_or]
    exact .some (spelt_variable path o.node.id)
  · obtain ⟨hmem, htype⟩ := Catalog.find?_eq_some_iff.1 htemplate
    obtain ⟨haccess, hsingle⟩ :=
      Template.standard_access_eq_none template hmem (by rwa [htype]) (by rwa [htype])
    simp only [resultTerm?, hevent, hlocal, if_false, haccess, hsingle, Option.none_or,
      Bool.false_eq_true]
    by_cases hmany : 1 < o.node.dataOutputs
    · have hlabel : o.legibleLabel = true := by simpa [legibleResult, hevent, hlocal] using hlegible
      have hspelt := (spelt_variable path o.node.id).member (of_decide_eq_true hlabel hmany)
      simp only [hmany, if_true]
      refine .some ?_
      simpa [memberOf, Expression.toList_operand, settle] using hspelt
    · simp only [hmany, if_false]
      exact .none

/-- What the text for a pure node of a standard type is. -/
theorem tells_pure {g : Graph} {path : List NodeId}
    (htemplate : Catalog.standard.find? o.node.type = some template)
    (hpure : template.isPure = true) {inputs : List DataTree}
    (hlegible : (DataTree.pure o inputs).legible = true)
    (h : ∀ t ∈ inputs, t.legible = true →
      Tells (t.text ⟨.standard, g, Scope.stemAt path⟩) (t.term path)) :
    Tells ((DataTree.pure o inputs).text ⟨.standard, g, Scope.stemAt path⟩)
      ((DataTree.pure o inputs).term path) := by
  rw [DataTree.legible_pure, Bool.and_eq_true, legiblePure, Bool.and_eq_true,
    decide_eq_true_eq] at hlegible
  obtain ⟨⟨hlabel, hproperty⟩, hinputs⟩ := hlegible
  have hinput : ∀ index < o.arity,
      Tells (inputs.map (DataTree.text ⟨.standard, g, Scope.stemAt path⟩))[index]?.join
      (inputs.map (DataTree.term path))[index]?.join := by
    intro index hindex
    cases ht : inputs[index]? with
    | none =>
      simp only [List.getElem?_map, ht]
      exact .none
    | some t =>
      have hmem : t ∈ inputs.take o.arity :=
        List.mem_of_getElem? (by rw [List.getElem?_take_of_lt hindex, ht])
      simp only [List.getElem?_map, ht]
      exact h t (List.mem_of_mem_take hmem) (List.all_eq_true.1 hinputs t hmem)
  rw [DataTree.text_pure (s := ⟨.standard, g, Scope.stemAt path⟩) htemplate, DataTree.term_pure]
  by_cases hsplit : o.node.type = Template.splitVector.type
  · obtain rfl : Template.splitVector = template := by
      rw [hsplit, Catalog.find?_splitVector] at htemplate
      exact Option.some.inj htemplate
    have hfirst := hinput 0 (by simp [arity, hsplit])
    simp only [pureTerm?, hsplit, if_true, Option.map_some]
    exact .some (spelt_reach (fun _ _ => rfl) hlabel (spelt_split _ o.node hfirst))
  · obtain ⟨shape, hshape⟩ := Shape.exists_of_pure htemplate hpure hsplit
    have hmem := Shape.mem_types_of_ofType? hshape
    obtain rfl := Option.some.inj ((Shape.find?_standard hmem).symm.trans htemplate)
    have hname : shape = .property → Module.IsName (Template.fieldText o.node "name" "value") :=
      fun heq =>
      hproperty (heq ▸ hshape)
    have harity : o.arity = shape.arity := by simp [arity, hsplit, hshape]
    simp only [pureTerm?, hsplit, if_false, hshape, Option.map_some]
    refine .some (spelt_reach (fun _ _ => ?_) hlabel (spelt_shape _ o.node hname (harity ▸ hinput)))
    cases shape <;> rfl

end Outlet

namespace Scope

open Term

/-- The text for an output whose tree is legible is written for the settled term of the tree. -/
theorem tells_unfold {g : Graph} (hcovers : Catalog.standard.Covers g) (path : List NodeId)
    (visited : Finset NodeId) (output : Endpoint)
    (hlegible : (unfold ⟨.standard, g, stemAt path⟩ visited output).legible = true) :
    Tells ((unfold ⟨.standard, g, stemAt path⟩ visited output).text ⟨.standard, g, stemAt path⟩)
      ((unfold ⟨.standard, g, stemAt path⟩ visited output).term path) := by
  induction hcard : (outside ⟨.standard, g, stemAt path⟩ visited).card using Nat.strongRecOn
    generalizing visited output with
  | ind _ ih =>
    cases houtlet : g.outlet? output with
    | none =>
      rw [unfold_of_none houtlet]
      exact .none
    | some o =>
      obtain ⟨template, htemplate⟩ :=
        hcovers o.node (Graph.find?_mem (outlet?_eq_some_iff.1 houtlet).1).1
      rw [unfold_of_some houtlet, isPure_eq (s := ⟨.standard, g, stemAt path⟩)
        htemplate] at hlegible ⊢
      cases hpure : template.isPure with
      | false =>
        simp only [hpure, Bool.false_eq_true, if_false] at hlegible ⊢
        rw [DataTree.text_result (s := ⟨.standard, g, stemAt path⟩) htemplate]
        exact Outlet.tells_result htemplate hlegible
      | true =>
        by_cases hmem : output.node ∈ visited
        · simp only [hmem, if_true]
          exact .none
        · simp only [hpure, hmem, if_true, if_false] at hlegible ⊢
          refine Outlet.tells_pure htemplate hpure hlegible fun t ht hlegible' => ?_
          obtain ⟨e, -, rfl⟩ := List.mem_map.1 ht
          by_cases hflow : Label.isFlow e.1
          · simp only [hflow, if_true]
            exact .none
          · cases hlink : g.incoming? o.node.id e.2 with
            | none =>
              simp only [hflow]
              exact .none
            | some link =>
              simp only [hflow, hlink] at hlegible' ⊢
              exact ih _ (hcard ▸ card_outside_insert_lt (Graph.mem_ids_of_outlet? houtlet) hmem)
                _ _ hlegible' rfl

theorem getElem?_trees (s : Scope) (node : Node Graph) (below : Endpoint → DataTree) (index : Nat) :
    (s.trees node below)[index]? = node.inputs[index]?.map fun label =>
      if Label.isFlow label then .unconnected
      else ((s.graph.incoming? node.id index).map fun link => below link.source).getD
        .unconnected := by
  simp only [trees, List.getElem?_map, List.getElem?_zipIdx, Option.map_map]
  simp [Function.comp_def]

/-- The tree of an output of a node that splits a vector. -/
theorem legible_and_term_split {path : List NodeId} {o : Outlet}
    (htype : o.node.type = Template.splitVector.type) (hname : Module.IsName o.label)
    {inputs : List DataTree} {t : DataTree} {e : Term} (hfirst : inputs[0]? = some t)
    (hlegible : t.legible = true) (hterm : t.term path = some e) :
    (DataTree.pure o inputs).legible = true ∧
    (DataTree.pure o inputs).term path = some (o.part e) := by
  have hshape : Shape.ofType? Template.splitVector.type = none := by decide +kernel
  rw [DataTree.legible_pure, DataTree.term_pure]
  cases inputs with
  | nil => simp at hfirst
  | cons t' ts =>
    obtain rfl : t' = t := by simpa using hfirst
    simp [Outlet.legiblePure, Outlet.legibleLabel, Outlet.arity, Outlet.pureTerm?, htype, hshape,
      hname, hlegible, hterm]

/-- A base with a sign in front takes the sign over its members, so the member of it is read exactly
if neither the base nor any base inside it starts with a sign, and the node has other values. -/
theorem member_eq_settle_part_iff (o : Outlet) (e : Term) :
    Term.member e o.label = (o.part e).settle ↔ 1 < o.node.dataOutputs ∧
      (Term.member e o.label).upright = true := by
  by_cases hmany : 1 < o.node.dataOutputs
  · rw [eq_comm, Outlet.part, if_pos hmany, settle_eq_self_iff]
    exact (and_iff_right hmany).symm
  · have hne : Term.member e o.label ≠ e.settle := fun heq => by
      have hsize := congrArg sizeOf heq
      rw [sizeOf_settle, Term.member.sizeOf_spec] at hsize
      omega
    simp [Outlet.part, hmany, hne]

/-- The text for a member of a vector that an expression feeds has one reading. Signs in front of a
base are read over its members; so the text reads as the member of the whole expression exactly if
no base of a member starts with a sign, and the node has more outputs than this one. -/
theorem expression_reads_member {g : Graph} {path : List NodeId} {output : Endpoint}
    {node : Node Graph} {label input : String} {link : Link} {e : Term}
    (hcovers : Catalog.standard.Covers g) (hids : g.ids.Nodup)
    (hfind : g.find? output.node = some node) (htype : node.type = Template.splitVector.type)
    (hlabel : node.outputs[output.port.toNat]? = some label) (hname : Module.IsName label)
    (hinput : node.inputs[0]? = some input) (hdata : Label.isFlow input = false)
    (hlink : g.incoming? node.id 0 = some link)
    (hlegible : (unfold ⟨.standard, g, stemAt path⟩ {output.node} link.source).legible = true)
    (hterm : (unfold ⟨.standard, g, stemAt path⟩ {output.node} link.source).term path = some e) :
    ∃ text, expression ⟨.standard, g, stemAt path⟩ g.ids output = some text ∧
      (∀ r, Reads .whole text.toList r ↔ r = ((⟨node, label⟩ : Outlet).part e).settle) ∧
      (Reads .whole text.toList (.member e label) ↔
        1 < node.dataOutputs ∧ (Term.member e label).upright = true) := by
  have houtlet : g.outlet? output = some ⟨node, label⟩ := outlet?_eq_some_iff.2 ⟨hfind, hlabel⟩
  have htemplate : Catalog.standard.find? node.type = some Template.splitVector := by
    rw [htype, Catalog.find?_splitVector]
  have htree : unfold ⟨.standard, g, stemAt path⟩ ∅ output = .pure ⟨node, label⟩
      (trees ⟨.standard, g, stemAt path⟩ node
        (unfold ⟨.standard, g, stemAt path⟩ {output.node})) := by
    have hpure : isPure ⟨.standard, g, stemAt path⟩ node = true := by
      rw [isPure_eq (s := ⟨.standard, g, stemAt path⟩) htemplate]
      rfl
    rw [unfold_of_some houtlet]
    simp [hpure]
  have hfirst :
      (trees ⟨.standard, g, stemAt path⟩ node
      (unfold ⟨.standard, g, stemAt path⟩ {output.node}))[0]? =
      some (unfold ⟨.standard, g, stemAt path⟩ {output.node} link.source) := by
    simp [getElem?_trees, hinput, hdata, hlink]
  obtain ⟨hlegible', hterm'⟩ :=
    legible_and_term_split (o := ⟨node, label⟩) htype hname hfirst hlegible hterm
  rw [← htree] at hlegible' hterm'
  have htells := tells_unfold hcovers path ∅ output hlegible'
  rw [hterm', ← expression_eq_text hcovers hids] at htells
  generalize expression ⟨.standard, g, stemAt path⟩ g.ids output = found at htells
  cases htells with
  | some hspelt =>
    refine ⟨_, rfl, hspelt.reads_iff, ?_⟩
    rw [hspelt.reads_iff]
    exact member_eq_settle_part_iff ⟨node, label⟩ e

def splitTwice : Graph :=
  ⟨[{ (.ofType 1 "number" [] ["value"] : Node Graph) with
    fields := .ofList [("value", .number (.neg (.ofNat 5)))] }, .ofType 2 "add" ["a", "b"]
    ["result"], .ofType 3 "split-vector" ["vector"] ["x", "y", "z"],
    .ofType 4 "split-vector" ["vector"] ["x", "y", "z"]],
    [⟨⟨1, 0⟩, ⟨2, 0⟩⟩, ⟨⟨2, 0⟩, ⟨3, 0⟩⟩, ⟨⟨3, 1⟩, ⟨4, 0⟩⟩]⟩

theorem expression_reads_member_splitTwice : ∃ text,
    expression ⟨.standard, splitTwice, stemAt [7]⟩ splitTwice.ids ⟨4, 0⟩ = some text ∧
    text = "(-5 + 0).y.x" ∧
    Reads .whole text.toList
      (.member (.member (.binary .add (.prefixed .minus (.literal (.number (.ofNat 5))))
        (.literal (.number .zero))) "y") "x") := by
  have hall : (splitTwice.nodes.all fun n => Catalog.standard.contains n.type) = true := by
    decide +kernel
  have hcovers : Catalog.standard.Covers splitTwice :=
    fun n hn => Catalog.contains_iff.1 (List.all_eq_true.1 hall n hn)
  have hfind : splitTwice.find? (⟨4, 0⟩ : Endpoint).node =
      some (.ofType 4 "split-vector" ["vector"] ["x", "y", "z"]) := rfl
  have hlink : splitTwice.incoming? 4 0 = some ⟨⟨3, 1⟩, ⟨4, 0⟩⟩ := rfl
  have hterm : (unfold ⟨.standard, splitTwice, stemAt [7]⟩ {4} ⟨3, 1⟩).term [7] =
      some (.member (.binary .add (.prefixed .minus (.literal (.number (.ofNat 5))))
        (.literal (.number .zero))) "y") := by
    decide +kernel
  obtain ⟨text, hexpression, -, hreads⟩ :=
    expression_reads_member hcovers (by decide) hfind rfl rfl (by decide +kernel) rfl
    (by decide) hlink (by decide +kernel) hterm
  have htext : expression ⟨.standard, splitTwice, stemAt [7]⟩ splitTwice.ids ⟨4, 0⟩ =
      some "(-5 + 0).y.x" := by
    decide +kernel
  exact ⟨text, hexpression, Option.some.inj (hexpression.symm.trans htext),
    hreads.2 ⟨by decide, by decide⟩⟩

def splitNegation : Graph :=
  ⟨[.ofType 1 "not" ["value"] ["result"], .ofType 2 "split-vector" ["vector"] ["x", "y", "z"]],
    [⟨⟨1, 0⟩, ⟨2, 0⟩⟩]⟩

/-- The member of a negation is read as the negation of a member. -/
theorem member_of_negation_misread : ∃ text,
    expression ⟨.standard, splitNegation, ""⟩ splitNegation.ids ⟨2, 0⟩ = some text ∧
    Reads .whole text.toList (.prefixed .bang (.member (.literal (.bool false)) "x")) ∧
    ¬Reads .whole text.toList (.member (.prefixed .bang (.literal (.bool false))) "x") := by
  have htext : expression ⟨.standard, splitNegation, ""⟩ splitNegation.ids ⟨2, 0⟩ =
      some "!false.x" := by decide +kernel
  have hname : Module.IsName "x" := by decide +kernel
  have hspelt : Spelt "!false.x".toList (.prefixed .bang (.member (.literal (.bool false)) "x")) :=
    ((spelt_source (.bool false)).negation.member hname :)
  exact ⟨_, htext, (hspelt.reads_iff _).2 rfl, fun h => by cases (hspelt.reads_iff _).1 h⟩

end Scope

end FlowGraph
