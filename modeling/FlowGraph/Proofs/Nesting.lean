import Mathlib.Data.List.Basic
import FlowGraph.Catalog.Basic

/-! Brackets and quotes in texts. A scan over a text keeps where in quotes it is and how deep in
brackets; what is opened and closed in a text can be passed over, and has no place inside that is
out of all brackets and quotes. -/
namespace FlowGraph
namespace Operand

/-- What a character changes in a scan: where in a quoted text it is, and how deep in brackets. -/
def step : Mode × Int → Char → Mode × Int
  | (.escaped, depth), _ => (.quoted, depth)
  | (.quoted, depth), c =>
    if c = '\\' then (.escaped, depth) else if c = '\x22' then (.plain, depth) else (.quoted, depth)
  | (.plain, depth), c =>
    if c = '\x22' then (.quoted, depth)
    else if c = '(' || c = '[' then (.plain, depth + 1)
    else if c = ')' || c = ']' then (.plain, depth - 1)
    else (.plain, depth)

def scan (state : Mode × Int) (cs : List Char) : Mode × Int := cs.foldl step state

@[simp] theorem scan_nil (state : Mode × Int) : scan state [] = state := rfl

theorem scan_cons (state : Mode × Int) (c : Char) (cs : List Char) :
    scan state (c :: cs) = scan (step state c) cs := rfl

theorem scan_append (state : Mode × Int) (xs ys : List Char) :
    scan state (xs ++ ys) = scan (scan state xs) ys :=
  List.foldl_append

theorem step_shift (mode : Mode) (depth k : Int) (c : Char) :
    step (mode, depth + k) c = ((step (mode, depth) c).1, (step (mode, depth) c).2 + k) := by
  cases mode <;> simp only [step]
  · split_ifs
    · rfl
    · exact congrArg _ (by omega)
    · exact congrArg _ (by omega)
    · rfl
  · split_ifs <;> rfl

/-- A scan does not depend on the depth that it starts at. -/
theorem scan_shift (mode : Mode) (depth k : Int) (cs : List Char) :
    scan (mode, depth + k) cs = ((scan (mode, depth) cs).1, (scan (mode, depth) cs).2 + k) := by
  induction cs generalizing mode depth with
  | nil => rfl
  | cons c cs ih => rw [scan_cons, step_shift, ih, scan_cons]

theorem isOpen_cons (mode : Mode) (depth : Int) (c : Char) (cs : List Char) :
    isOpen mode depth (c :: cs) = ((mode == .plain && Text.isBlank c && depth == 0) ||
      isOpen (step (mode, depth) c).1 (step (mode, depth) c).2 cs) := by
  cases mode <;> simp only [isOpen, step]
  · split_ifs with hquote hopens hcloses
    · rw [hquote]
      rfl
    · rcases (by simpa using hopens : c = '(' ∨ c = '[') with rfl | rfl <;> rfl
    · rcases (by simpa using hcloses : c = ')' ∨ c = ']') with rfl | rfl <;> rfl
    · rfl
  · split_ifs <;> rfl
  · rfl

theorem isOpen_append (mode : Mode) (depth : Int) (xs ys : List Char) :
    isOpen mode depth (xs ++ ys) =
    (isOpen mode depth xs || isOpen (scan (mode, depth) xs).1 (scan (mode, depth) xs).2 ys) := by
  induction xs generalizing mode depth with
  | nil =>
    rw [List.nil_append, scan_nil]
    cases mode <;> rfl
  | cons c xs ih => rw [List.cons_append, isOpen_cons, ih, isOpen_cons, scan_cons, Bool.or_assoc]

/-- Brackets and quotes that are opened in a text are closed in it. -/
structure Closed (cs : List Char) : Prop where
  scan_eq : scan (.plain, 0) cs = (.plain, 0)
  nonneg : ∀ xs, xs <+: cs → 0 ≤ (scan (.plain, 0) xs).2

/-- Two places of a text, as one cut into the other. -/
theorem append_eq_mark {α : Type} {a b xs ys : List α} {c : α} (h : a ++ b = xs ++ c :: ys) :
    (∃ m, a = xs ++ c :: m ∧ ys = m ++ b) ∨ ∃ m, xs = a ++ m ∧ b = m ++ c :: ys := by
  rcases List.append_eq_append_iff.1 h with ⟨m, rfl, rfl⟩ | ⟨m, rfl, hm⟩
  · exact .inr ⟨m, rfl, rfl⟩
  · cases m with
    | nil => exact .inr ⟨[], by simp, hm.symm⟩
    | cons d m =>
      obtain ⟨rfl, rfl⟩ := List.cons.inj hm
      exact .inl ⟨m, rfl, rfl⟩

theorem eq_of_singleton_eq {α : Type} {b c : α} {xs ys : List α} (h : [b] = xs ++ c :: ys) :
    b = c := by
  have hmem : c ∈ [b] := h ▸ List.mem_append_right _ List.mem_cons_self
  exact (List.mem_singleton.1 hmem).symm

theorem prefix_of_concat_eq {α : Type} {cs xs ys : List α} {r c : α}
    (h : cs ++ [r] = xs ++ c :: ys) : xs <+: cs := by
  rcases append_eq_mark h with ⟨m, rfl, -⟩ | ⟨m, rfl, hm⟩
  · exact List.prefix_append _ _
  · cases m with
    | nil => exact ⟨[], by rw [List.append_nil, List.append_nil]⟩
    | cons b m => simp at hm

namespace Closed

variable {cs : List Char}

theorem scan_plain (h : Closed cs) (depth : Int) : scan (.plain, depth) cs = (.plain, depth) := by
  have hshift := scan_shift .plain 0 depth cs
  rwa [h.scan_eq, Int.zero_add] at hshift

/-- A scan passes over what is closed. -/
theorem scan_append (h : Closed cs) (xs : List Char) :
    scan (.plain, 0) (cs ++ xs) = scan (.plain, 0) xs := by
  rw [Operand.scan_append, h.scan_eq]

theorem nil : Closed [] := ⟨rfl, fun xs hxs => by rw [List.prefix_nil.1 hxs]; exact Int.le_refl 0⟩

theorem append {ds : List Char} (h : Closed cs) (h' : Closed ds) : Closed (cs ++ ds) := by
  refine ⟨by rw [h.scan_append, h'.scan_eq], ?_⟩
  rintro xs ⟨rest, hrest⟩
  rcases List.append_eq_append_iff.1 hrest with ⟨m, hm, -⟩ | ⟨m, rfl, hm⟩
  · exact h.nonneg xs ⟨m, hm.symm⟩
  · rw [h.scan_append]
    exact h'.nonneg m ⟨rest, hm.symm⟩

end Closed

def marks : List Char := ['\x22', '(', '[', ')', ']']

theorem step_of_not_mem_marks {c : Char} (hc : c ∉ marks) (depth : Int) :
    step (.plain, depth) c = (.plain, depth) := by
  simp only [marks, List.mem_cons, List.not_mem_nil, or_false, not_or] at hc
  obtain ⟨hquote, hround, hsquare, hround', hsquare'⟩ := hc
  simp [step, hquote, hround, hsquare, hround', hsquare']

theorem scan_of_not_mem_marks {cs : List Char} (h : ∀ c ∈ cs, c ∉ marks) (depth : Int) :
    scan (.plain, depth) cs = (.plain, depth) := by
  induction cs with
  | nil => rfl
  | cons c cs ih =>
    rw [scan_cons, step_of_not_mem_marks (h c List.mem_cons_self),
      ih fun d hd => h d (List.mem_cons_of_mem _ hd)]

theorem Closed.of_not_mem_marks {cs : List Char} (h : ∀ c ∈ cs, c ∉ marks) : Closed cs :=
  ⟨scan_of_not_mem_marks h 0, fun _ hxs =>
    Int.le_of_eq
      (congrArg Prod.snd (scan_of_not_mem_marks (fun c hc => h c (hxs.subset hc)) 0)).symm⟩

/-- A text without a place inside it that is out of all brackets and quotes. -/
def Sealed (cs : List Char) : Prop :=
  ∀ xs c ys, cs = xs ++ c :: ys → scan (.plain, 0) xs = (.plain, 0) → xs = []

section Brackets

variable {l r : Char} {cs : List Char}

theorem step_opens (hl : l = '(' ∨ l = '[') (depth : Int) :
    step (.plain, depth) l = (.plain, depth + 1) := by
  rcases hl with rfl | rfl <;> rfl

theorem step_closes (hr : r = ')' ∨ r = ']') (depth : Int) :
    step (.plain, depth) r = (.plain, depth - 1) := by
  rcases hr with rfl | rfl <;> rfl

/-- A text between two characters is closed if it is so at its end and if the scan of its inside,
after the first of them, does not go below where it started. -/
theorem Closed.of_enclosed (hlast : scan (.plain, 0) (l :: (cs ++ [r])) = (.plain, 0))
    (hinside : ∀ xs, xs <+: cs → 0 ≤ (scan (.plain, 0) (l :: xs)).2) :
    Closed (l :: (cs ++ [r])) := by
  refine ⟨hlast, fun xs hxs => ?_⟩
  rcases List.prefix_cons_iff.1 hxs with rfl | ⟨ys, rfl, hys⟩
  · exact Int.le_refl 0
  · rcases List.prefix_concat_iff.1 hys with rfl | hys
    · exact Int.le_of_eq (congrArg Prod.snd hlast).symm
    · exact hinside ys hys

theorem Sealed.of_enclosed (hinside : ∀ xs, xs <+: cs → scan (.plain, 0) (l :: xs) ≠ (.plain, 0)) :
    Sealed (l :: (cs ++ [r])) := by
  intro xs c ys hsplit hscan
  cases xs with
  | nil => rfl
  | cons d xs =>
    obtain ⟨rfl, htail⟩ := List.cons.inj hsplit
    exact absurd hscan (hinside xs (prefix_of_concat_eq htail))

theorem Closed.bracketed (hl : l = '(' ∨ l = '[') (hr : r = ')' ∨ r = ']') (h : Closed cs) :
    Closed (l :: (cs ++ [r])) := by
  have hscan : ∀ xs, scan (.plain, 0) (l :: xs) =
      ((scan (.plain, 0) xs).1, (scan (.plain, 0) xs).2 + 1) := fun xs => by
    rw [scan_cons, step_opens hl, scan_shift]
  have hlast : scan (.plain, 0) (l :: (cs ++ [r])) = (.plain, 0) := by
    rw [hscan, h.scan_append, scan_cons, step_closes hr]
    rfl
  refine .of_enclosed hlast fun xs hxs => ?_
  rw [hscan]
  have hdepth := h.nonneg xs hxs
  exact Int.le_add_one hdepth

theorem Closed.sealed (hl : l = '(' ∨ l = '[') (h : Closed cs) : Sealed (l :: (cs ++ [r])) := by
  refine .of_enclosed fun xs hxs hscan => ?_
  have hdepth := h.nonneg xs hxs
  rw [scan_cons, step_opens hl, scan_shift] at hscan
  have hzero : (scan (.plain, 0) xs).2 + 1 = 0 := congrArg Prod.snd hscan
  omega

/-- In a text with brackets behind it, only what is in front of them and their start is outside. -/
theorem Closed.mem_or_eq (hl : l = '(' ∨ l = '[') (h : Closed cs) {front xs ys : List Char}
    (hfront : Closed front) {c : Char} (hsplit : front ++ l :: (cs ++ [r]) = xs ++ c :: ys)
    (hscan : scan (.plain, 0) xs = (.plain, 0)) : c ∈ front ∨ c = l := by
  rcases append_eq_mark hsplit with ⟨m, rfl, -⟩ | ⟨m, rfl, hm⟩
  · exact .inl (List.mem_append_right _ List.mem_cons_self)
  · rw [hfront.scan_append] at hscan
    obtain rfl := h.sealed hl _ _ _ hm hscan
    exact .inr (List.cons.inj hm).1.symm

/-- Inside brackets there is no blank outside them. -/
theorem isOpen_eq_false {mode : Mode} {depth : Int}
    (h : ∀ xs, xs <+: cs → 0 < (scan (mode, depth) xs).2) : isOpen mode depth cs = false := by
  induction cs generalizing mode depth with
  | nil => cases mode <;> rfl
  | cons c cs ih =>
    have hdepth : 0 < depth := h [] (List.nil_prefix)
    have hne : (depth == 0) = false := beq_eq_false_iff_ne.2 (by omega)
    rw [isOpen_cons, hne, Bool.and_false, Bool.false_or]
    exact ih fun xs hxs => h (c :: xs) (List.cons_prefix_cons.2 ⟨rfl, hxs⟩)

theorem Closed.isOpen_bracketed (hl : l = '(' ∨ l = '[') (hr : r = ')' ∨ r = ']') (h : Closed cs) :
    isOpen .plain 0 (l :: (cs ++ [r])) = false := by
  have hblank : Text.isBlank l = false := by rcases hl with rfl | rfl <;> decide
  have hblank' : Text.isBlank r = false := by rcases hr with rfl | rfl <;> decide
  have hinside : isOpen .plain 1 cs = false := isOpen_eq_false fun xs hxs => by
    have hdepth := h.nonneg xs hxs
    have hshift := scan_shift .plain 0 1 xs
    rw [Int.zero_add] at hshift
    rw [hshift]
    exact Int.lt_add_one_of_le hdepth
  rw [isOpen_cons, hblank, step_opens hl, Int.zero_add, isOpen_append, hinside, h.scan_plain,
    isOpen_cons, hblank', step_closes hr]
  rfl

end Brackets

/-- What can stand between quotes: after a backslash any character, else no quote. -/
inductive Quoted : List Char → Prop
  | nil : Quoted []
  | char {c : Char} {cs : List Char} (hquote : c ≠ '\x22') (hescape : c ≠ '\\') (h : Quoted cs) :
      Quoted (c :: cs)
  | escape {c : Char} {cs : List Char} (h : Quoted cs) : Quoted ('\\' :: c :: cs)

namespace Quoted

variable {cs : List Char}

theorem scan_eq (h : Quoted cs) (depth : Int) : scan (.quoted, depth) cs = (.quoted, depth) := by
  induction h with
  | nil => rfl
  | char hquote hescape _ ih =>
    rw [scan_cons, step, if_neg hescape, if_neg hquote]
    exact ih
  | escape _ ih => exact ih

/-- The scan stays inside the quotes. -/
theorem scan_prefix (h : Quoted cs) {xs : List Char} (hxs : xs <+: cs) (depth : Int) :
    (scan (.quoted, depth) xs).1 ≠ .plain ∧ (scan (.quoted, depth) xs).2 = depth := by
  have hquoted : Mode.quoted ≠ .plain := by decide
  have hescaped : Mode.escaped ≠ .plain := by decide
  induction h generalizing xs with
  | nil =>
    rw [List.prefix_nil.1 hxs]
    exact ⟨hquoted, rfl⟩
  | char hquote hescape _ ih =>
    rcases List.prefix_cons_iff.1 hxs with rfl | ⟨ys, rfl, hys⟩
    · exact ⟨hquoted, rfl⟩
    · rw [scan_cons, step, if_neg hescape, if_neg hquote]
      exact ih hys
  | escape _ ih =>
    rcases List.prefix_cons_iff.1 hxs with rfl | ⟨ys, rfl, hys⟩
    · exact ⟨hquoted, rfl⟩
    · rcases List.prefix_cons_iff.1 hys with rfl | ⟨zs, rfl, hzs⟩
      · exact ⟨hescaped, rfl⟩
      · exact (ih hzs :)

theorem closed (h : Quoted cs) : Closed ('\x22' :: (cs ++ ['\x22'])) := by
  have hlast : scan (.plain, 0) ('\x22' :: (cs ++ ['\x22'])) = (.plain, 0) := by
    show scan (.quoted, 0) (cs ++ ['\x22']) = _
    rw [scan_append, h.scan_eq]
    rfl
  exact .of_enclosed hlast fun xs hxs => Int.le_of_eq (h.scan_prefix hxs 0).2.symm

theorem sealed (h : Quoted cs) : Sealed ('\x22' :: (cs ++ ['\x22'])) :=
  .of_enclosed fun _ hxs hscan => (h.scan_prefix hxs 0).1 (congrArg Prod.fst hscan)

theorem isOpen_eq (h : Quoted cs) : isOpen .plain 0 ('\x22' :: (cs ++ ['\x22'])) = false := by
  have hinside : ∀ cs, Quoted cs → isOpen .quoted 0 cs = false := fun cs h => by
    induction h with
    | nil => rfl
    | char hquote hescape _ ih => rw [isOpen, if_neg hescape, if_neg hquote, ih]
    | escape _ ih => exact ih
  show isOpen .quoted 0 (cs ++ ['\x22']) = false
  rw [isOpen_append, hinside cs h, h.scan_eq]
  rfl

end Quoted

end Operand
end FlowGraph
