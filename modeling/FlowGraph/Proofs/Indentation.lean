import Mathlib.Data.List.Infix
import FlowGraph.Proofs.SourceLayout

/-! Source that is laid out keeps its lines. Where no brace closes that is not open, a line stands
behind `width` blanks for each brace that is open before it and that does not close at its start. -/
namespace FlowGraph

/-! ### Texts that are cut off -/

namespace Text

theorem splitAt_eq_cons {c : Char} {cs piece : List Char} {pieces : List (List Char)}
    (h : splitAt c cs = piece :: pieces) :
    cs = piece ∧ pieces = [] ∨ ∃ rest, cs = piece ++ c :: rest ∧ splitAt c rest = pieces := by
  induction cs generalizing piece with
  | nil => simp_all [splitAt]
  | cons d cs ih =>
    obtain ⟨first, others, hpieces⟩ := exists_splitAt c cs
    by_cases hd : d = c
    · simp only [splitAt, hd, if_true, List.cons.injEq] at h
      obtain ⟨rfl, rfl⟩ := h
      exact .inr ⟨cs, by simp [hd], rfl⟩
    · simp only [splitAt, hd, if_false, hpieces, List.cons.injEq] at h
      obtain ⟨rfl, rfl⟩ := h
      rcases ih hpieces with ⟨rfl, rfl⟩ | ⟨rest, rfl, hrest⟩
      · exact .inl ⟨rfl, rfl⟩
      · exact .inr ⟨rest, rfl, hrest⟩

/-- A text can be cut off in any of its pieces. -/
theorem exists_splitAt_of_piece {c : Char} {cs piece front : List Char}
    {before after : List (List Char)} (h : splitAt c cs = before ++ piece :: after)
    (hfront : front <+: piece) : ∃ cut, cut <+: cs ∧ splitAt c cut = before ++ [front] := by
  induction before generalizing cs with
  | nil =>
    have hmem : piece ∈ splitAt c cs := by simp [h]
    have hnot : c ∉ front := fun hin => not_mem_of_mem_splitAt hmem (hfront.subset hin)
    have hpiece : piece <+: cs := by
      rcases splitAt_eq_cons h with ⟨rfl, -⟩ | ⟨rest, rfl, -⟩
      · exact List.prefix_rfl
      · exact List.prefix_append piece _
    exact ⟨front, hfront.trans hpiece, splitAt_of_not_mem hnot⟩
  | cons first before ih =>
    rcases splitAt_eq_cons h with ⟨-, hnil⟩ | ⟨rest, rfl, hrest⟩
    · simp at hnil
    · obtain ⟨cut, hcut, hpieces⟩ := ih hrest
      have hmem : first ∈ splitAt c (first ++ c :: rest) := by simp [h]
      refine ⟨first ++ c :: cut, by simpa using hcut, ?_⟩
      rw [splitAt_append, splitAt_of_not_mem (not_mem_of_mem_splitAt hmem), hpieces]
      rfl

end Text

/-! ### Braces of lines -/

namespace Layout

open Text

/-- The characters of a line that stand outside string literals; `mark` is the quote of the literal
that the line starts in. In a literal a backslash goes with the character behind it. -/
def unquoted : Option Char → List Char → List Char
  | _, [] => []
  | none, c :: cs => if isQuote c then unquoted (some c) cs else c :: unquoted none cs
  | some mark, '\\' :: _ :: cs => unquoted (some mark) cs
  | some mark, c :: cs => if c = mark then unquoted none cs else unquoted (some mark) cs

/-- The code of lines: no literal goes on behind the end of its line. -/
def codeOf (lines : List (List Char)) : List Char := lines.flatMap (unquoted none)

def closersOf (line : List Char) : Nat :=
  (line.takeWhile fun c => c == '\x7d' || isBlank c).count '\x7d'

/-- No brace closes that is not open, wherever the text is cut off. -/
def Matched (text : List Char) : Prop :=
  ∀ front, front <+: text → (codeOf (splitAt '\n' front)).count '\x7d' ≤
    (codeOf (splitAt '\n' front)).count '\x7b'

instance (text : List Char) : Decidable (Matched text) :=
  decidable_of_iff (∀ front ∈ text.inits,
    (codeOf (splitAt '\n' front)).count '\x7d' ≤ (codeOf (splitAt '\n' front)).count '\x7b')
      (by simp [Matched])

/-- Every line stands behind `width` blanks for each brace that is open before it, without those
that close at its start. -/
def Aligned (width : Nat) (lines : List (List Char)) : Prop :=
  ∀ before line after, lines = before ++ line :: after → ∃ depth,
    depth + closersOf line + (codeOf before).count '\x7d' = (codeOf before).count '\x7b' ∧
    line = List.replicate (width * depth) ' ' ++ trim line

theorem isQuote_of_blank {c : Char} (hc : isBlank c = true) : isQuote c = false := by
  by_contra h
  simp only [Bool.not_eq_false, isQuote, Bool.or_eq_true, beq_iff_eq] at h
  rcases h with (rfl | rfl) | rfl <;> exact absurd hc (by decide)

theorem ne_of_blank {c : Char} (hc : isBlank c = true) : c ≠ '\x7b' ∧ c ≠ '\x7d' := by
  constructor <;> rintro rfl <;> exact absurd hc (by decide)

/-- Places that are not between a backslash and the character behind it, with the literal they are
in. -/
inductive Place.Within : Place → Option Char → Prop
  | code (atStart : Bool) : Within (.code atStart) none
  | quoted {mark : Char} (h : isQuote mark = true) : Within (.quoted mark) (some mark)

theorem bracesFrom_eq_count {place : Place} {mark : Option Char} (h : place.Within mark)
    (cs : List Char) :
    (bracesFrom place cs).opening = (unquoted mark cs).count '\x7b' ∧
      (bracesFrom place cs).closing = (unquoted mark cs).count '\x7d' := by
  fun_induction unquoted mark cs generalizing place with
  | case1 => simp [bracesFrom]
  | case2 c cs hquote ih =>
    obtain ⟨atStart⟩ := h
    simpa [bracesFrom, hquote] using ih (.quoted hquote)
  | case3 c cs hquote ih =>
    obtain ⟨atStart⟩ := h
    have hcode := fun b => ih (.code b)
    by_cases hopen : c = '\x7b'
    · subst hopen
      simp [bracesFrom, hquote, hcode]
    · by_cases hclose : c = '\x7d'
      · subst hclose
        simp [bracesFrom, hquote, hcode]
      · by_cases hblank : isBlank c =
          true <;> simp [bracesFrom, hquote, hopen, hclose, hblank, hcode]
  | case4 mark d cs ih =>
    cases h with
    | quoted hmark => simpa [bracesFrom] using ih (.quoted hmark)
  | case5 mark cs hpair ih =>
    cases h with
    | quoted hmark =>
      have hslash : mark ≠ '\\' := by
        rintro rfl
        exact absurd hmark (by decide)
      simpa [bracesFrom, hslash] using ih (.code false)
  | case6 mark c cs hpair hne ih =>
    cases h with
    | quoted hmark =>
      by_cases hslash : c = '\\'
      · -- the backslash is the last character of the line
        cases cs with
        | nil => simp [bracesFrom, unquoted, hslash]
        | cons d cs => exact (hpair d cs hslash rfl).elim
      · simpa [bracesFrom, hslash, hne] using ih (.quoted hmark)

theorem leading_eq_closersOf (line : List Char) : (braces line).leading = closersOf line := by
  unfold braces closersOf
  induction line with
  | nil => rfl
  | cons c cs ih =>
    by_cases hclose : c = '\x7d'
    · subst hclose
      simp [bracesFrom, isQuote, ih]
    · by_cases hblank : isBlank c = true
      · simp [bracesFrom, isQuote_of_blank hblank, ne_of_blank hblank, hblank, ih]
      · rw [List.takeWhile_cons_of_neg (by simp [hclose, hblank])]
        simp only [bracesFrom]
        repeat' split
        all_goals simp_all [leading_eq_zero]

theorem braces_eq (line : List Char) :
    braces line = ⟨(unquoted none line).count '\x7b', (unquoted none line).count '\x7d',
      closersOf line⟩ := by
  obtain ⟨hopening, hclosing⟩ := bracesFrom_eq_count (.code true) line
  rw [← hopening, ← hclosing, ← leading_eq_closersOf]
  rfl

/-! ### Blanks around lines -/

theorem braces_blank_cons {c : Char} (hc : isBlank c = true) (cs : List Char) :
    braces (c :: cs) = braces cs := by
  simp [braces, bracesFrom, isQuote_of_blank hc, ne_of_blank hc, hc]

theorem bracesFrom_concat_blank {c : Char} (hc : isBlank c = true) (place : Place)
    (cs : List Char) : bracesFrom place (cs ++ [c]) = bracesFrom place cs := by
  induction cs generalizing place with
  | nil => cases place <;> simp [bracesFrom, isQuote_of_blank hc, ne_of_blank hc, hc]
  | cons d cs ih => cases place <;> simp [bracesFrom, ih]

theorem braces_trim (cs : List Char) : braces (trim cs) = braces cs := by
  rw [trim_eq_rdropWhile]
  have hlast : ∀ ds : List Char, braces (ds.rdropWhile isBlank) = braces ds := by
    intro ds
    induction ds using List.reverseRecOn with
    | nil => rfl
    | append_singleton ds d ih =>
      by_cases hd : isBlank d = true
      · rw [List.rdropWhile_concat_pos _ _ _ hd, ih, braces, braces, bracesFrom_concat_blank hd]
      · rw [List.rdropWhile_concat_neg _ _ _ hd]
  have hfirst : braces (cs.dropWhile isBlank) = braces cs := by
    induction cs with
    | nil => rfl
    | cons c cs ih =>
      by_cases hc : isBlank c = true
      · rw [List.dropWhile_cons_of_pos hc, ih, braces_blank_cons hc]
      · rw [List.dropWhile_cons_of_neg hc]
  rw [hlast, hfirst]

theorem closersOf_trim (line : List Char) : closersOf (trim line) = closersOf line := by
  rw [← leading_eq_closersOf, braces_trim, leading_eq_closersOf]

@[simp] theorem codeOf_append (xs ys : List (List Char)) :
    codeOf (xs ++ ys) = codeOf xs ++ codeOf ys := by
  simp [codeOf]

@[simp] theorem codeOf_singleton (line : List Char) : codeOf [line] = unquoted none line := by
  simp [codeOf]

/-- Blanks around lines have no braces. -/
theorem count_codeOf_map_trim (lines : List (List Char)) :
    (codeOf (lines.map trim)).count '\x7b' = (codeOf lines).count '\x7b' ∧
      (codeOf (lines.map trim)).count '\x7d' = (codeOf lines).count '\x7d' := by
  induction lines with
  | nil => exact ⟨rfl, rfl⟩
  | cons line lines ih =>
    have hline := braces_trim line
    rw [braces_eq, braces_eq, Braces.mk.injEq] at hline
    rw [← List.singleton_append, List.map_append, codeOf_append, codeOf_append]
    simp [List.count_append, hline, ih]

theorem codeOf_filter (lines : List (List Char)) :
    codeOf (lines.filter (!·.isEmpty)) = codeOf lines := by
  induction lines with
  | nil => rfl
  | cons line lines ih => cases line <;> simp_all [codeOf, unquoted]

/-! ### Texts in which braces match -/

/-- A line that can be seen is a piece of the text, and the pieces before it have the code of the
lines before it. -/
theorem exists_piece {text line : List Char} {before after : List (List Char)}
    (h : visibleLines text = before ++ line :: after) : ∃ front piece back,
      splitAt '\n' text = front ++ piece :: back ∧ trim piece = line ∧
        codeOf before = codeOf (front.map trim) := by
  rw [visibleLines_eq, List.filter_eq_append_iff] at h
  obtain ⟨shown, rest, hpieces, rfl, hrest⟩ := h
  obtain ⟨blank, others, rfl, hblank, -, -⟩ := List.filter_eq_cons_iff.1 hrest
  obtain ⟨front, back, hsplit, hfront, hback⟩ :=
    List.map_eq_append_iff.1 (hpieces.trans (List.append_assoc ..).symm)
  obtain ⟨piece, back, rfl, hpiece, -⟩ := List.map_eq_cons_iff.1 hback
  refine ⟨front, piece, back, hsplit, hpiece, ?_⟩
  have hnone : blank.filter (!·.isEmpty) = [] := List.filter_eq_nil_iff.2 hblank
  rw [hfront, codeOf_append, codeOf_filter, ← codeOf_filter blank, hnone]
  simp [codeOf]

theorem unquoted_of_forall {cs : List Char} (h : ∀ c ∈ cs, isQuote c = false) :
    unquoted none cs = cs := by
  induction cs with
  | nil => rfl
  | cons c cs ih =>
    rw [List.forall_mem_cons] at h
    simp [unquoted, h.1, ih h.2]

variable {text : List Char}

/-- The braces that close at the start of a line are open before it. -/
theorem Matched.closersOf_le (h : Matched text) {before after : List (List Char)} {line : List Char}
    (hlines : visibleLines text = before ++ line :: after) :
    closersOf line + (codeOf before).count '\x7d' ≤ (codeOf before).count '\x7b' := by
  obtain ⟨front, piece, back, hsplit, rfl, hcode⟩ := exists_piece hlines
  -- The text is cut off behind the closing braces that the line starts with.
  obtain ⟨cut, hcut, hpieces⟩ := exists_splitAt_of_piece hsplit
    (List.takeWhile_prefix fun c => c == '\x7d' || isBlank c)
  have hstart : ∀ c ∈ piece.takeWhile (fun c => c == '\x7d' || isBlank c), isQuote c = false ∧
      c ≠ '\x7b' := by
    intro c hc
    have hc := List.mem_takeWhile_imp hc
    rw [Bool.or_eq_true, beq_iff_eq] at hc
    rcases hc with rfl | hblank
    · exact ⟨by decide, by decide⟩
    · exact ⟨isQuote_of_blank hblank, (ne_of_blank hblank).1⟩
  have hle := h cut hcut
  rw [hpieces, codeOf_append, codeOf_singleton, unquoted_of_forall fun c hc => (hstart c hc).1,
    List.count_append, List.count_append, List.count_eq_zero.2
      fun hmem => (hstart _ hmem).2 rfl] at hle
  obtain ⟨hopening, hclosing⟩ := count_codeOf_map_trim front
  rw [← hcode] at hopening hclosing
  rw [closersOf_trim, closersOf]
  omega

theorem levelAfter_append (level : Nat) (xs ys : List (List Char)) :
    levelAfter level (xs ++ ys) = levelAfter (levelAfter level xs) ys := by
  induction xs generalizing level with
  | nil => rfl
  | cons x xs ih => simp [levelAfter, ih]

/-- The level before a line is the number of braces that are open there: it is cut off at no line
before. -/
theorem Matched.levelAfter_add (h : Matched text) {before after : List (List Char)}
    {line : List Char} (hlines : visibleLines text = before ++ line :: after) :
    levelAfter 0 before + (codeOf before).count '\x7d' = (codeOf before).count '\x7b' := by
  induction before using List.reverseRecOn generalizing line after with
  | nil => rfl
  | append_singleton before last ih =>
    -- `line` is behind `last`, so what `last` closes is open before it.
    have hle := h.closersOf_le hlines
    have hlevel := ih (hlines.trans (List.append_assoc ..))
    simp only [codeOf_append, codeOf_singleton, List.count_append] at hle ⊢
    rw [levelAfter_append, levelAfter, levelAfter, braces_eq]
    simp only
    omega

/-! ### Source that is laid out -/

variable (width : Nat) (source : String)

theorem visibleLines_apply :
    visibleLines ((indented width).apply source).toList = visibleLines source.toList := by
  have hvisible : ∀ line ∈ visibleLines source.toList, Visible line := fun _ => visible_of_mem
  rw [visibleLines, lines_apply, map_trim_indentFrom width 0 hvisible, List.filter_eq_self]
  exact fun line hline => by simpa using (hvisible line hline).ne_nil

theorem aligned_apply (h : Matched source.toList) :
    Aligned width (Text.lines ((indented width).apply source).toList) := by
  intro before line after hlines
  rw [lines_apply] at hlines
  have hvisible : visibleLines source.toList = before.map trim ++ trim line :: after.map trim := by
    rw [← map_trim_indentFrom width 0 fun _ => visible_of_mem, hlines, List.map_append,
      List.map_cons]
  have hclosers := h.closersOf_le hvisible
  have hlevel := h.levelAfter_add hvisible
  obtain ⟨hopening, hclosing⟩ := count_codeOf_map_trim before
  rw [closersOf_trim] at hclosers
  refine ⟨levelAfter 0 (before.map trim) - closersOf line, by omega, ?_⟩
  rw [hvisible, indentFrom_append] at hlines
  have hback := (List.append_inj hlines (by rw [length_indentFrom, List.length_map])).2
  rw [indentFrom, braces_eq, closersOf_trim] at hback
  exact (List.cons.inj hback).1.symm

/-- Laying source out changes nothing but the blanks around lines, and blank lines. Doing it twice
is the same as doing it once. Where braces match, the open ones say how far each line is moved. -/
theorem apply_indented_layout :
    (indented width).apply ((indented width).apply source) = (indented width).apply source ∧
      visibleLines ((indented width).apply source).toList = visibleLines source.toList ∧
      (Matched source.toList →
        Aligned width (Text.lines ((indented width).apply source).toList)) := by
  have hlines := visibleLines_apply width source
  have htwice :=
    congrArg (fun lines => joinLines ((indentFrom width 0 lines).map String.ofList)) hlines
  exact ⟨htwice, hlines, aligned_apply width source⟩

def nested : String := "while (a) \x7b\r\n\n\tif (b == \"\x7b\\\"\x7d\") \x7b\nc();\n\x7d \x7d d()"

theorem apply_indented_layout_nested : Matched nested.toList ∧
    Aligned 2 (Text.lines ((indented 2).apply nested).toList) ∧ (indented 2).apply nested =
      "while (a) \x7b\n  if (b == \"\x7b\\\"\x7d\") \x7b\n    c();\n\x7d \x7d d()" := by
  have h : Matched nested.toList := by decide +kernel
  exact ⟨h, (apply_indented_layout 2 nested).2.2 h, by decide +kernel⟩

end Layout
end FlowGraph
