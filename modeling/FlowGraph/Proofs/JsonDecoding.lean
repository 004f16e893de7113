import FlowGraph.Json.Decoder
import FlowGraph.Proofs.JsonText
import FlowGraph.Proofs.NameMap
import Mathlib.Data.List.Forall2

/-! Decoders that undo an encoding. What is written is read back as it was exactly where its
containers are few enough and every number in it survives being written and read. -/
namespace FlowGraph

/-- The number that is read where `x` was written, if any is. -/
def Number.reread (x : Number) : Option Number :=
  if x.isFinite then (Json.Literal.ofNumber x).number? else none

theorem Number.isFinite_of_reread {x y : Number} (h : x.reread = some y) : x.isFinite = true := by
  rw [reread] at h
  split at h
  · assumption
  · cases h

theorem Number.reread_eq_self_iff {x : Number} : x.reread = some x ↔
    x.isFinite = true ∧ (Json.Literal.ofNumber x).number? = some x := by
  rw [reread]
  split <;> simp [*]

namespace Json

/-! ### Depth -/

mutual

def depth : Json → Nat
  | array items => itemsDepth items + 1
  | object members => membersDepth members + 1
  | _ => 0

def itemsDepth : List Json → Nat
  | [] => 0
  | item :: items => max (depth item) (itemsDepth items)

def membersDepth : List (Option String × Json) → Nat
  | [] => 0
  | (_, value) :: members => max (depth value) (membersDepth members)

end

theorem itemsDepth_le {items : List Json} {room : Nat} :
    itemsDepth items ≤ room ↔ ∀ item ∈ items, item.depth ≤ room := by
  induction items with
  | nil => simp [itemsDepth]
  | cons item items ih => simp [itemsDepth, ih]

theorem membersDepth_le {members : List (Option String × Json)} {room : Nat} :
    membersDepth members ≤ room ↔ ∀ m ∈ members, m.2.depth ≤ room := by
  induction members with
  | nil => simp [membersDepth]
  | cons m members ih => simp [membersDepth, ih]

theorem depth_array_le {items : List Json} {room : Nat} :
    (array items).depth ≤ room + 1 ↔ ∀ item ∈ items, item.depth ≤ room := by
  rw [depth, Nat.add_le_add_iff_right, itemsDepth_le]

theorem depth_record_le {members : List (String × Json)} {room : Nat} :
    (record members).depth ≤ room + 1 ↔ ∀ m ∈ members, m.2.depth ≤ room := by
  rw [record, depth, Nat.add_le_add_iff_right, membersDepth_le, List.forall_mem_map]

theorem not_depth_record_le_zero (members : List (String × Json)) :
    ¬(record members).depth ≤ 0 := by
  simp [record, depth]

@[simp] theorem depth_text (s : String) : (text s).depth = 0 := by simp [text, depth]

@[simp] theorem depth_bool (b : Bool) : (bool b).depth = 0 := by simp [depth]

@[simp] theorem depth_null : null.depth = 0 := by simp [depth]

@[simp] theorem depth_ofNat (n : Nat) : (ofNat n).depth = 0 := by simp [ofNat, depth]

@[simp] theorem depth_ofNumber (x : Number) : (ofNumber x).depth = 0 := by
  rw [ofNumber]
  split <;> simp [depth]

/-! ### Texts of encodings -/

theorem Legible.text (s : String) : Legible (text s) := .string s

theorem Legible.ofNat (n : Nat) : Legible (ofNat n) := .number (Literal.regular_ofNat n)

theorem Legible.ofNumber (x : Number) : Legible (ofNumber x) := by
  rw [Json.ofNumber]
  split
  · exact .number (Literal.regular_ofNumber x)
  · exact .null

theorem Legible.record {members : List (String × Json)} (h : ∀ m ∈ members, Legible m.2) :
    Legible (record members) := by
  refine .object (fun m hm => ?_) fun m hm => ?_ <;> obtain ⟨m, hmem, rfl⟩ := List.mem_map.1 hm
  · rfl
  · exact h m hmem

theorem Legible.list {α : Type} {write : α → Json} {as : List α} (h : ∀ a ∈ as, Legible (write a)) :
    Legible (.array (as.map write)) := by
  refine .array fun item hitem => ?_
  obtain ⟨a, ha, rfl⟩ := List.mem_map.1 hitem
  exact h a ha

namespace Decoder

/-! ### Records -/

theorem mapM_eq_some_map {α β : Type} {f : α → Option β} {g : α → β} {as : List α}
    (h : ∀ a ∈ as, f a = some (g a)) : as.mapM f = some (as.map g) := by
  induction as with
  | nil => rfl
  | cons a as ih => simp [h a, ih fun a ha => h a (List.mem_cons_of_mem _ ha)]

theorem filter_name_eq {members : List (String × Json)} (hnodup : (members.map Prod.fst).Nodup)
    {m : String × Json} (hm : m ∈ members) : members.filter (·.1 == m.1) = [m] := by
  induction members with
  | nil => simp at hm
  | cons first members ih =>
    rw [List.map_cons, List.nodup_cons] at hnodup
    rcases List.mem_cons.1 hm with rfl | hm
    · rw [List.filter_cons_of_pos (by simp), List.filter_eq_nil_iff.2]
      intro other hother hname
      exact hnodup.1 (List.mem_map.2 ⟨other, hother, by simpa using hname⟩)
    · rw [List.filter_cons_of_neg, ih hnodup.2 hm]
      intro hname
      exact hnodup.1 (List.mem_map.2 ⟨m, hm, (beq_iff_eq.1 hname).symm⟩)

/-- A record that has exactly the members it should have is built from their values. -/
theorem record_record {α : Type} {names : List String} {members : List (String × Json)}
    (hnames : members.map Prod.fst = names) (hnodup : names.Nodup)
    (build : Nat → List (Option Json) → Option α) (room : Nat) :
    record names build (room + 1) (Json.record members) =
      build room (members.map fun m => some m.2) := by
  subst hnames
  have hentries : (members.map fun m => (some m.1, m.2)).mapM (fun (m : Option String × Json) =>
      m.1.map fun name => (name, m.2)) = some members := by
    rw [List.mapM_map]
    exact (mapM_eq_some_map (g := fun m => m) fun _ _ => rfl).trans (by rw [List.map_id'])
  have hfields : fields? (members.map Prod.fst) (Json.record members) =
      some (members.map fun m => some m.2) := by
    show ((members.map fun m => (some m.1, m.2)).mapM fun (m : Option String × Json) =>
      m.1.map fun name => (name, m.2)).bind _ = _
    rw [hentries, Option.bind_some, List.mapM_map]
    refine mapM_eq_some_map fun m hm => ?_
    simp only [Function.comp_apply, filter_name_eq hnodup hm]
  rw [record, hfields, Option.bind_some]

/-! ### Reading back -/

section

variable {α : Type} {read : Decoder α} {write : α → Json} {numbers : α → List Number}

/-- What was written for `a` is read as something with the numbers of `a` reread, where the
containers are few enough, and as `a` itself where rereading changes no number. -/
structure Recovers (read : Decoder α) (write : α → Json) (numbers : α → List Number) (a : α) :
    Prop where
  complete {room : Nat} (hroom : (write a).depth ≤ room)
    (hnumbers : ∀ x ∈ numbers a, x.reread = some x) :
    read room (write a) = some a
  sound {room : Nat} {b : α} (h : read room (write a) = some b) :
    (write a).depth ≤ room ∧ List.Forall₂ (fun x y => x.reread = some y) (numbers a) (numbers b)

/-- Where there are no numbers and no containers there are no conditions. -/
theorem recovers_plain {a : α} (hdepth : (write a).depth = 0)
    (h : ∀ room, read room (write a) = some a) : Recovers read write (fun _ => []) a where
  complete _ _ := h _
  sound _ := ⟨by omega, .nil⟩

theorem recovers_text (s : String) : Recovers text .text (fun _ => []) s :=
  recovers_plain (by simp) fun _ => rfl

theorem recovers_bool (b : Bool) : Recovers bool .bool (fun _ => []) b :=
  recovers_plain (by simp) fun _ => rfl

theorem nat_ofNat {limit n : Nat} (hn : n < limit) (room : Nat) :
    nat limit room (.ofNat n) = some n := by
  simp [nat, Json.ofNat, Literal.ofNat, Literal.nat?, hn]

theorem recovers_uint32 (n : UInt32) : Recovers uint32 (fun n => .ofNat n.toNat) (fun _ => []) n :=
  recovers_plain (by simp) fun room => by simp [uint32, nat_ofNat n.toNat_lt_size]

theorem recovers_uint64 (n : UInt64) : Recovers uint64 (fun n => .ofNat n.toNat) (fun _ => []) n :=
  recovers_plain (by simp) fun room => by simp [uint64, nat_ofNat n.toNat_lt_size]

theorem number_ofNumber (x : Number) (room : Nat) : number room (.ofNumber x) = x.reread := by
  rw [Json.ofNumber, Number.reread]
  split <;> rfl

theorem recovers_number (x : Number) : Recovers number .ofNumber (fun x => [x]) x where
  complete _ hnumbers := by rw [number_ofNumber, hnumbers x (by simp)]
  sound h := by
    rw [number_ofNumber] at h
    exact ⟨by simp, .cons h .nil⟩

theorem Recovers.list {as : List α} (h : ∀ a ∈ as, Recovers read write numbers a) :
    Recovers (list read) (fun as => .array (as.map write)) (fun as => as.flatMap numbers) as where
  complete {room} hroom hnumbers := by
    cases room with
    | zero => simp [depth] at hroom
    | succ room =>
      rw [depth_array_le, List.forall_mem_map] at hroom
      rw [Decoder.list, List.mapM_map, mapM_eq_some_map (g := fun a => a) fun a ha => ?_,
        List.map_id']
      exact (h a ha).complete (hroom a ha) fun x hx => hnumbers x (List.mem_flatMap.2 ⟨a, ha, hx⟩)
  sound {room bs} hread := by
    cases room with
    | zero => simp [Decoder.list] at hread
    | succ room =>
      rw [Decoder.list, List.mapM_map] at hread
      rw [depth_array_le, List.forall_mem_map]
      induction as generalizing bs with
      | nil =>
        obtain rfl : [] = bs := by simpa using hread
        exact ⟨by simp, .nil⟩
      | cons a as ih =>
        simp only [List.mapM_cons, Function.comp_apply, Option.bind_eq_bind,
          Option.bind_eq_some_iff, Option.pure_def, Option.some.injEq] at hread
        obtain ⟨b, hb, bs, hbs, rfl⟩ := hread
        have hfirst := (h a (by simp)).sound hb
        have hmore := ih (fun a ha => h a (by simp [ha])) hbs
        exact ⟨List.forall_mem_cons.2 ⟨hfirst.1, hmore.1⟩, List.rel_append hfirst.2 hmore.2⟩

def entriesJson (write : α → Json) (entries : List (String × α)) : Json :=
  .record (entries.map fun e => (e.1, write e.2))

def namedValue? (read : Decoder α) (room : Nat) (m : Option String × Json) :
    Option (String × α) := do
  let name ← m.1
  let value ← read room m.2
  return (name, value)

theorem nameMap_entriesJson (read : Decoder α) (write : α → Json) (entries : List (String × α))
    (room : Nat) : nameMap read (room + 1) (entriesJson write entries) =
      (entries.mapM fun e => namedValue? read room (some e.1, write e.2)).map .ofList := by
  show ((entries.map _).map _ |>.mapM (namedValue? read room)).bind _ = _
  rw [List.mapM_map, List.mapM_map]
  exact (Option.map_eq_bind ..).symm

/-- Entries are read under their names, one by one. -/
theorem sound_entries {entries es : List (String × α)} {room : Nat}
    (h : ∀ e ∈ entries, Recovers read write numbers e.2)
    (hread : entries.mapM (fun e => namedValue? read room (some e.1, write e.2)) = some es) :
    es.map Prod.fst = entries.map Prod.fst ∧ (∀ e ∈ entries, (write e.2).depth ≤ room) ∧
      List.Forall₂ (fun x y => x.reread = some y) (entries.flatMap fun e => numbers e.2)
        (es.flatMap fun e => numbers e.2) := by
  induction entries generalizing es with
  | nil =>
    obtain rfl : [] = es := by simpa using hread
    exact ⟨rfl, by simp, .nil⟩
  | cons e entries ih =>
    simp only [List.mapM_cons, namedValue?, Option.bind_eq_bind, Option.bind_some,
      Option.bind_eq_some_iff, Option.pure_def, Option.some.injEq] at hread
    obtain ⟨_, ⟨value, hvalue, rfl⟩, es, hes, rfl⟩ := hread
    have hfirst := (h e (by simp)).sound hvalue
    obtain ⟨hnames, hdepth, hnumbers⟩ := ih (fun e he => h e (by simp [he])) hes
    exact ⟨by simp [hnames], List.forall_mem_cons.2 ⟨hfirst.1, hdepth⟩,
      List.rel_append hfirst.2 hnumbers⟩

theorem Recovers.nameMap {m : NameMap α} (h : ∀ e ∈ m.entries, Recovers read write numbers e.2) :
    Recovers (nameMap read) (fun m => entriesJson write m.entries)
      (fun m => m.entries.flatMap fun e => numbers e.2) m where
  complete {room} hroom hnumbers := by
    cases room with
    | zero => exact absurd hroom (not_depth_record_le_zero _)
    | succ room =>
      rw [entriesJson, depth_record_le, List.forall_mem_map] at hroom
      rw [nameMap_entriesJson, mapM_eq_some_map (g := fun e => e) fun e he => ?_, List.map_id',
        Option.map_some, NameMap.ofList_entries]
      have hvalue :=
        (h e he).complete (hroom e he) fun x hx => hnumbers x (List.mem_flatMap.2 ⟨e, he, hx⟩)
      simp [namedValue?, hvalue]
  sound {room b} hread := by
    cases room with
    | zero => simp [Decoder.nameMap] at hread
    | succ room =>
      rw [nameMap_entriesJson] at hread
      obtain ⟨es, hes, rfl⟩ := Option.map_eq_some_iff.1 hread
      obtain ⟨hnames, hdepth, hnumbers⟩ := sound_entries h hes
      -- the names are in order as they were, so the map has the entries that were read
      have hofList : (NameMap.ofList es).entries = es :=
        congrArg NameMap.entries (NameMap.ofList_entries ⟨es, hnames ▸ m.sorted⟩)
      rw [entriesJson, depth_record_le, List.forall_mem_map, hofList]
      exact ⟨hdepth, hnumbers⟩

end

end Decoder
end Json
end FlowGraph
