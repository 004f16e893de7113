import FlowGraph.NameMap

/-! Name maps are determined by their values, and adding entries overlays them. -/
namespace FlowGraph.NameMap

variable {α : Type}

theorem get?_insert (m : NameMap α) (name x : String) (value : α) :
    (m.insert name value).get? x = if x = name then some value else m.get? x := by
  by_cases h : x = name
  · subst h
    simp
  · rw [get?_insert_of_ne h, if_neg h]

@[simp] theorem get?_empty (x : String) : (empty : NameMap α).get? x = none := rfl

theorem find?_eq_none_of_lt {x : String} {entries : List (String × α)}
    (h : ∀ y ∈ entries.map Prod.fst, x < y) : (entries.find? fun e => e.1 = x) = none := by
  refine List.find?_eq_none.2 fun e he => ?_
  have hlt := h e.1 (List.mem_map_of_mem he)
  intro heq
  rw [of_decide_eq_true heq] at hlt
  exact String.lt_irrefl _ hlt

/-- The first name of a map is the least one that has a value. -/
theorem head_le_of_find? {x : String} {entry : String × α} {rest : List (String × α)}
    (h : ((entry :: rest).map Prod.fst).Pairwise (· < ·))
    (hx : ((entry :: rest).find? fun e => e.1 = x).isSome) : entry.1 ≤ x := by
  rw [List.map_cons, List.pairwise_cons] at h
  obtain ⟨e, he, heq⟩ := List.find?_isSome.1 hx
  obtain rfl := of_decide_eq_true heq
  rcases List.mem_cons.1 he with rfl | he
  · exact String.le_refl _
  · exact String.not_lt.1 (String.lt_asymm (h.1 e.1 (List.mem_map_of_mem he)))

theorem entries_ext {xs ys : List (String × α)} (hxs : (xs.map Prod.fst).Pairwise (· < ·))
    (hys : (ys.map Prod.fst).Pairwise (· < ·))
    (h : ∀ x, (xs.find? fun e => e.1 = x) = ys.find? fun e => e.1 = x) : xs = ys := by
  induction xs generalizing ys with
  | nil =>
    cases ys with
    | nil => rfl
    | cons e rest => simpa using h e.1
  | cons e xs ih =>
    cases ys with
    | nil => simpa using h e.1
    | cons e' ys =>
      have hle : e'.1 ≤ e.1 := head_le_of_find? hys (by simp [← h])
      have hge : e.1 ≤ e'.1 := head_le_of_find? hxs (by simp [h])
      have hname : e.1 = e'.1 := String.le_antisymm hge hle
      have hentry : e = e' := by simpa [hname] using h e.1
      subst hentry
      rw [List.map_cons, List.pairwise_cons] at hxs hys
      refine congrArg (e :: ·) (ih hxs.2 hys.2 fun x => ?_)
      by_cases hx : e.1 = x
      · subst hx
        rw [find?_eq_none_of_lt hxs.1, find?_eq_none_of_lt hys.1]
      · simpa [hx] using h x

theorem find?_eq_map_get? (m : NameMap α) (x : String) :
    (m.entries.find? fun e => e.1 = x) = (m.get? x).map fun value => (x, value) := by
  rw [get?, Option.map_map]
  cases hfind : m.entries.find? fun e => e.1 = x with
  | none => rfl
  | some e =>
    have hname : e.1 = x := by simpa using List.find?_some hfind
    simp [← hname]

theorem ext_get? {m m' : NameMap α} (h : ∀ x, m.get? x = m'.get? x) : m = m' := by
  have hentries : m.entries = m'.entries :=
    entries_ext m.sorted m'.sorted fun x => by rw [find?_eq_map_get?, find?_eq_map_get?, h]
  cases m
  cases m'
  simpa using hentries

/-- Entries with different names lie over what was there. -/
theorem get?_insertAll {entries : List (String × α)} (hnames : (entries.map Prod.fst).Nodup)
    (m : NameMap α) (x : String) : (m.insertAll entries).get? x =
      ((entries.find? fun e => e.1 = x).map Prod.snd).or (m.get? x) := by
  induction entries generalizing m with
  | nil => simp [insertAll]
  | cons e rest ih =>
    rw [List.map_cons, List.nodup_cons] at hnames
    have hstep : m.insertAll (e :: rest) = (m.insert e.1 e.2).insertAll rest := rfl
    rw [hstep, ih hnames.2, get?_insert]
    by_cases hx : x = e.1
    · subst hx
      have hnone : (rest.find? fun e' => e'.1 = e.1) = none := by
        refine List.find?_eq_none.2 fun e' he' heq => hnames.1 ?_
        rw [← of_decide_eq_true heq]
        exact List.mem_map_of_mem he'
      simp [hnone]
    · simp [hx, Ne.symm hx]

theorem contains_iff_mem {m : NameMap α} {x : String} :
    m.contains x = true ↔ x ∈ m.entries.map Prod.fst := by
  simp [contains, get?, Option.isSome_map, List.find?_isSome]

theorem contains_insertNew {m : NameMap α} {name x : String} {value : α} :
    (m.insertNew name value).contains x = true ↔ x = name ∨ m.contains x = true := by
  unfold insertNew
  split
  · next h =>
    refine ⟨.inr, fun hx => hx.elim (fun hx => ?_) id⟩
    rw [hx]
    exact h
  · rw [contains, get?_insert, contains]
    by_cases hx : x = name <;> simp [hx]

/-- The first value of a name stays. -/
theorem get?_insertNew (m : NameMap α) (name x : String) (value : α) :
    (m.insertNew name value).get? x = (m.get? x).or (if x = name then some value else none) := by
  unfold insertNew
  split
  · next h =>
    by_cases hx : x = name
    · obtain ⟨old, hold⟩ := Option.isSome_iff_exists.1 h
      rw [hx, hold, Option.some_or]
    · rw [if_neg hx, Option.or_none]
  · next h =>
    rw [get?_insert]
    by_cases hx : x = name
    · have hnone : m.get? name = none := by simpa [contains] using h
      rw [if_pos hx, if_pos hx, hx, hnone, Option.none_or]
    · rw [if_neg hx, if_neg hx, Option.or_none]

/-- The entries are the values that names have. -/
theorem mem_entries_iff {m : NameMap α} {x : String} {value : α} :
    (x, value) ∈ m.entries ↔ m.get? x = some value := by
  constructor
  · intro hmem
    have hfind : m.entries.find? (fun e => e.1 = x) = some (x, value) := by
      obtain ⟨front, back, hsplit⟩ := List.append_of_mem hmem
      have hnodup := m.sorted.imp fun h => String.ne_of_lt h
      rw [hsplit, List.map_append, List.map_cons, List.pairwise_append] at hnodup
      rw [hsplit, List.find?_append, List.find?_eq_none.2 fun e he heq => ?_, Option.none_or,
        List.find?_cons_of_pos]
      · simp
      · exact hnodup.2.2 e.1 (List.mem_map_of_mem he) x List.mem_cons_self (by simpa using heq)
    rw [get?, hfind, Option.map_some]
  · intro hget
    have hfind := find?_eq_map_get? m x
    rw [hget, Option.map_some] at hfind
    exact List.mem_of_find?_eq_some hfind

theorem nodup_names (m : NameMap α) : (m.entries.map Prod.fst).Nodup :=
  m.sorted.imp fun h => String.ne_of_lt h

theorem get?_insertAll_entries (m m' : NameMap α) (x : String) :
    (m.insertAll m'.entries).get? x = (m'.get? x).or (m.get? x) :=
  get?_insertAll m'.nodup_names m x

@[simp] theorem ofList_entries (m : NameMap α) : ofList m.entries = m :=
  ext_get? fun x => by rw [ofList, get?_insertAll_entries, get?_empty, Option.or_none]

end FlowGraph.NameMap
