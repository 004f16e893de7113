import Mathlib.Data.List.DropRight
import FlowGraph.Source.Module

/-! The lines of generated source. Laying source out moves lines to the right and does nothing else
to them; how far a line is moved depends on the braces before it. So the description of a module,
which is written as a comment, has an effect on the lines behind it only through the braces in
it. -/
namespace FlowGraph

/-! ### Lines of texts -/

namespace Text

theorem trim_eq_rdropWhile (cs : List Char) : trim cs = (cs.dropWhile isBlank).rdropWhile isBlank :=
  rfl

theorem trim_sublist (cs : List Char) : (trim cs).Sublist cs :=
  (List.rdropWhile_prefix isBlank _).sublist.trans (List.dropWhile_sublist isBlank)

theorem trim_replicate_append (n : Nat) (cs : List Char) :
    trim (List.replicate n ' ' ++ cs) = trim cs := by
  have hblank : isBlank ' ' = true := by decide
  simp [trim, hblank]

theorem trim_concat_blank {c : Char} (hc : isBlank c = true) (cs : List Char) :
    trim (cs ++ [c]) = trim cs := by
  by_cases hcs : cs.dropWhile isBlank = [] <;> simp [trim, List.dropWhile_append, hcs, hc]

theorem trim_dropReturn (cs : List Char) : trim (dropReturn cs) = trim cs := by
  unfold dropReturn
  split
  · next h =>
    obtain ⟨front, rfl⟩ := List.getLast?_eq_some_iff.1 h
    simp [trim_concat_blank (c := '\r') (by decide)]
  · rfl

/-- What does not start with a blank keeps its start. -/
theorem trim_cons {c : Char} (hc : isBlank c = false) (cs : List Char) :
    ∃ rest, trim (c :: cs) = c :: rest := by
  have hprefix : trim (c :: cs) <+: c :: cs := by
    rw [trim_eq_rdropWhile, List.dropWhile_cons_of_neg (by simp [hc])]
    exact List.rdropWhile_prefix isBlank _
  have hne : trim (c :: cs) ≠ [] := by
    simp [trim_eq_rdropWhile, List.dropWhile_cons_of_neg, hc]
  obtain ⟨d, rest, heq⟩ := List.exists_cons_of_ne_nil hne
  rw [heq] at hprefix
  exact ⟨rest, by rw [heq, (List.cons_prefix_cons.1 hprefix).1]⟩

theorem trim_trim (cs : List Char) : trim (trim cs) = trim cs := by
  have hlast : (trim cs).rdropWhile isBlank = trim cs := List.rdropWhile_idempotent isBlank _
  have hfirst : (trim cs).dropWhile isBlank = trim cs := by
    cases hdrop : cs.dropWhile isBlank with
    | nil => simp [trim, hdrop]
    | cons c rest =>
      have hc := List.head?_dropWhile_not isBlank cs
      rw [hdrop] at hc
      have htrim : trim cs = trim (c :: rest) := by
        rw [← hdrop]
        simp [trim, List.dropWhile_idempotent]
      obtain ⟨more, hmore⟩ := trim_cons hc rest
      rw [htrim, hmore, List.dropWhile_cons_of_neg (by simpa using hc)]
  rw [trim_eq_rdropWhile (trim cs), hfirst, hlast]

theorem getLast?_ne_of_trim {cs : List Char} (h : trim cs = cs) {c : Char} (hc : isBlank c = true) :
    cs.getLast? ≠ some c := by
  intro hlast
  obtain ⟨front, rfl⟩ := List.getLast?_eq_some_iff.1 hlast
  have hlength := congrArg List.length h
  have hle := (trim_sublist front).length_le
  rw [trim_concat_blank hc, List.length_append, List.length_singleton] at hlength
  omega

theorem exists_splitAt (c : Char) (cs : List Char) :
    ∃ piece pieces, splitAt c cs = piece :: pieces := by
  cases cs with
  | nil => exact ⟨[], [], rfl⟩
  | cons d cs =>
    by_cases hd : d = c
    · exact ⟨[], splitAt c cs, by simp [splitAt, hd]⟩
    · cases hpieces : splitAt c cs <;> simp [splitAt, hd, hpieces]

theorem splitAt_append (c : Char) (xs ys : List Char) :
    splitAt c (xs ++ c :: ys) = splitAt c xs ++ splitAt c ys := by
  induction xs with
  | nil => simp [splitAt]
  | cons x xs ih =>
    obtain ⟨piece, pieces, hpieces⟩ := exists_splitAt c xs
    by_cases hx : x = c
    · simp [splitAt, hx, ih]
    · simp [splitAt, hx, ih, hpieces]

theorem splitAt_of_not_mem {c : Char} {cs : List Char} (h : c ∉ cs) : splitAt c cs = [cs] := by
  induction cs with
  | nil => rfl
  | cons d cs ih =>
    rw [List.mem_cons, not_or] at h
    simp [splitAt, Ne.symm h.1, ih h.2]

theorem not_mem_of_mem_splitAt {c : Char} {cs piece : List Char} (h : piece ∈ splitAt c cs) :
    c ∉ piece := by
  induction cs generalizing piece with
  | nil => simp_all [splitAt]
  | cons d cs ih =>
    obtain ⟨first, rest, hpieces⟩ := exists_splitAt c cs
    by_cases hd : d = c
    · simp only [splitAt, hd, if_true, List.mem_cons] at h
      rcases h with rfl | h
      · exact List.not_mem_nil
      · exact ih h
    · simp only [splitAt, hd, if_false, hpieces, List.mem_cons] at h ih
      rcases h with rfl | h
      · simpa [Ne.symm hd] using ih (.inl rfl)
      · exact ih (.inr h)

/-- The lines of a text are its pieces, but for carriage returns and for nothing behind the last
line break. -/
theorem lines_eq (cs : List Char) : ∃ front last, splitAt '\n' cs = front ++ [last] ∧
    lines cs = front.map dropReturn ++ if last = [] then [] else [last] := by
  obtain ⟨piece, pieces, hpieces⟩ := exists_splitAt '\n' cs
  have hne : splitAt '\n' cs ≠ [] := by simp [hpieces]
  have hsplit := List.dropLast_concat_getLast hne
  refine ⟨_, _, hsplit.symm, ?_⟩
  simp only [lines, List.getLast?_eq_getLast_of_ne_nil hne]
  cases (splitAt '\n' cs).getLast hne <;> simp

theorem newline_not_mem_of_mem_lines {cs line : List Char} (h : line ∈ lines cs) : '\n' ∉ line := by
  obtain ⟨front, last, hsplit, hlines⟩ := lines_eq cs
  have hpiece : ∀ piece ∈ front ++ [last], '\n' ∉ piece := fun piece hpiece =>
    not_mem_of_mem_splitAt (hsplit ▸ hpiece)
  rw [hlines, List.mem_append, List.mem_map] at h
  rcases h with ⟨piece, hmem, rfl⟩ | h
  · have hnot := hpiece piece (List.mem_append_left _ hmem)
    unfold dropReturn
    split
    · exact fun hin => hnot ((List.dropLast_sublist piece).subset hin)
    · exact hnot
  · split at h
    · cases h
    · exact List.mem_singleton.1 h ▸ hpiece last (by simp)

end Text

/-! ### Lines that are laid out -/

namespace Layout

open Text

theorem visibleLines_eq (cs : List Char) :
    visibleLines cs = ((splitAt '\n' cs).map trim).filter (!·.isEmpty) := by
  obtain ⟨front, last, hsplit, hlines⟩ := lines_eq cs
  have htrim : (front.map dropReturn).map trim = front.map trim := by simp [trim_dropReturn]
  rw [visibleLines, hlines, hsplit, List.map_append, htrim, List.map_append]
  by_cases hlast : last = [] <;> simp [hlast, trim]

theorem visibleLines_append (xs ys : List Char) :
    visibleLines (xs ++ '\n' :: ys) = visibleLines xs ++ visibleLines ys := by
  simp [visibleLines_eq, splitAt_append]

theorem visibleLines_joinLines (lines : List String) :
    visibleLines (joinLines lines).toList = lines.flatMap (visibleLines ·.toList) := by
  induction lines with
  | nil => rfl
  | cons line lines ih =>
    cases lines with
    | nil => simp [joinLines]
    | cons next lines =>
      have hjoin : (joinLines (line :: next :: lines)).toList = line.toList ++ '\n' ::
          (joinLines (next :: lines)).toList := by
        simp [joinLines, String.intercalate_cons_cons]
      rw [hjoin, visibleLines_append, ih]
      rfl

/-- A line that can be seen is trimmed, and is one line. -/
structure Visible (line : List Char) : Prop where
  trimmed : trim line = line
  ne_nil : line ≠ []
  single : '\n' ∉ line

theorem visible_of_mem {cs line : List Char} (h : line ∈ visibleLines cs) : Visible line := by
  rw [visibleLines_eq, List.mem_filter, List.mem_map] at h
  obtain ⟨⟨piece, hpiece, rfl⟩, hne⟩ := h
  exact ⟨trim_trim piece, by simpa using hne,
    fun hmem => not_mem_of_mem_splitAt hpiece ((trim_sublist piece).subset hmem)⟩

/-- How many braces are open behind lines, if `level` are open before them. -/
def levelAfter : Nat → List (List Char) → Nat
  | level, [] => level
  | level, line :: lines => levelAfter (level + (braces line).opening - (braces line).closing) lines

variable (width : Nat)

theorem indentFrom_append (level : Nat) (xs ys : List (List Char)) :
    indentFrom width level (xs ++ ys) = indentFrom width level xs ++ indentFrom width
      (levelAfter level xs) ys := by
  induction xs generalizing level with
  | nil => rfl
  | cons x xs ih => simp [indentFrom, levelAfter, ih]

theorem length_indentFrom (level : Nat) (lines : List (List Char)) :
    (indentFrom width level lines).length = lines.length := by
  induction lines generalizing level with
  | nil => rfl
  | cons line lines ih => simp [indentFrom, ih]

theorem indentFrom_zero (level : Nat) (lines : List (List Char)) :
    indentFrom 0 level lines = lines := by
  induction lines generalizing level with
  | nil => rfl
  | cons line lines ih => simp [indentFrom, ih]

/-- Only blanks are put in front of lines. -/
theorem map_trim_indentFrom (level : Nat) {lines : List (List Char)}
    (h : ∀ line ∈ lines, Visible line) : (indentFrom width level lines).map trim = lines := by
  induction lines generalizing level with
  | nil => rfl
  | cons line lines ih =>
    rw [List.forall_mem_cons] at h
    simp [indentFrom, trim_replicate_append, h.1.trimmed, ih _ h.2]

theorem mem_indentFrom {level : Nat} {lines : List (List Char)} {line : List Char}
    (h : line ∈ indentFrom width level lines) :
    ∃ n, ∃ seen ∈ lines, line = List.replicate n ' ' ++ seen := by
  induction lines generalizing level with
  | nil => cases h
  | cons first lines ih =>
    rw [indentFrom, List.mem_cons] at h
    rcases h with rfl | h
    · exact ⟨_, first, List.mem_cons_self, rfl⟩
    · obtain ⟨n, seen, hseen, heq⟩ := ih h
      exact ⟨n, seen, List.mem_cons_of_mem _ hseen, heq⟩

theorem lines_joinLines {lines : List (List Char)} (hsingle : ∀ line ∈ lines, '\n' ∉ line)
    (hne : ∀ line ∈ lines, line ≠ []) (hreturn : ∀ line ∈ lines, line.getLast? ≠ some '\r') :
    Text.lines (joinLines (lines.map String.ofList)).toList = lines := by
  have hsplit : ∀ {ls : List (List Char)}, (∀ line ∈ ls, '\n' ∉ line) → ls ≠ [] →
      splitAt '\n' (joinLines (ls.map String.ofList)).toList = ls := by
    intro ls hls hls'
    induction ls with
    | nil => exact absurd rfl hls'
    | cons line ls ih =>
      rw [List.forall_mem_cons] at hls
      cases ls with
      | nil => simp [joinLines, splitAt_of_not_mem hls.1]
      | cons next ls =>
        have hjoin : (joinLines ((line :: next :: ls).map String.ofList)).toList =
            line ++ '\n' :: (joinLines ((next :: ls).map String.ofList)).toList := by
          simp [joinLines, String.intercalate_cons_cons]
        rw [hjoin, splitAt_append, splitAt_of_not_mem hls.1, ih hls.2 (by simp)]
        rfl
  by_cases hnil : lines = []
  · simp [hnil, joinLines, Text.lines, splitAt]
  · obtain ⟨front, last, hpieces, hlines⟩ := lines_eq (joinLines (lines.map String.ofList)).toList
    rw [hsplit hsingle hnil] at hpieces
    subst hpieces
    have hkeep : front.map dropReturn = front := by
      refine (List.map_congr_left fun line hline => ?_).trans (List.map_id _)
      simp [dropReturn, hreturn line (List.mem_append_left _ hline)]
    rw [hlines, hkeep, if_neg (hne last (by simp))]

/-- The lines of source that is laid out. -/
theorem lines_apply (source : String) :
    Text.lines ((indented width).apply source).toList = indentFrom width 0
      (visibleLines source.toList) := by
  refine lines_joinLines (fun line hline => ?_) (fun line hline => ?_) fun line hline => ?_
  all_goals
    obtain ⟨n, seen, hseen, rfl⟩ := mem_indentFrom width hline
    have hvisible := visible_of_mem hseen
  · simpa using hvisible.single
  · simp [hvisible.ne_nil]
  · rw [List.getLast?_append_of_ne_nil _ hvisible.ne_nil]
    exact getLast?_ne_of_trim hvisible.trimmed (by decide)

/-- Behind the start of a line no brace is leading. -/
theorem leading_eq_zero {place : Place} (hplace : place ≠ .code true) (cs : List Char) :
    (bracesFrom place cs).leading = 0 := by
  induction cs generalizing place with
  | nil => simp [bracesFrom]
  | cons c cs ih =>
    have hquoted : ∀ mark, (bracesFrom (.quoted mark) cs).leading = 0 := fun mark => ih (by simp)
    have hescaped : ∀ mark, (bracesFrom (.escaped mark) cs).leading = 0 := fun mark => ih (by simp)
    have hcode : (bracesFrom (.code false) cs).leading = 0 := ih (by simp)
    cases place with
    | escaped mark => exact hquoted mark
    | quoted mark =>
      simp only [bracesFrom]
      repeat' split
      all_goals simp [hquoted, hescaped, hcode]
    | code atStart =>
      obtain rfl : atStart = false := by simpa using hplace
      simp only [bracesFrom]
      repeat' split
      all_goals simp_all

theorem leading_of_letter {c : Char} (hquote : isQuote c = false) (hopen : c ≠ '\x7b')
    (hclose : c ≠ '\x7d') (hblank : isBlank c = false) (cs : List Char) :
    (braces (c :: cs)).leading = 0 := by
  simp [braces, bracesFrom, hquote, hopen, hclose, hblank, leading_eq_zero]

/-- Where a line starts with no brace, how far it is moved tells how many braces are open. -/
theorem indentFrom_eq_iff {line : List Char} (hline : (braces line).leading = 0)
    (lines : List (List Char)) (level level' : Nat) :
    indentFrom width level (line :: lines) = indentFrom width level' (line :: lines) ↔
      width = 0 ∨ level = level' := by
  constructor
  · intro heq
    have hlength := congrArg List.length (List.cons.inj heq).1
    simp only [hline, Nat.sub_zero, List.length_append, List.length_replicate,
      Nat.add_right_cancel_iff] at hlength
    exact (Nat.eq_zero_or_pos width).imp_right fun hpos => Nat.eq_of_mul_eq_mul_left hpos hlength
  · rintro (rfl | rfl)
    · rw [indentFrom_zero, indentFrom_zero]
    · rfl

theorem visibleLines_cons {c : Char} (hblank : isBlank c = false) (hnewline : c ≠ '\n')
    (cs : List Char) : ∃ line lines, visibleLines (c :: cs) = (c :: line) :: lines := by
  obtain ⟨piece, pieces, hpieces⟩ := exists_splitAt '\n' cs
  obtain ⟨line, hline⟩ := trim_cons hblank piece
  exact ⟨line, _, by simp [visibleLines_eq, splitAt, hnewline, hpieces, hline]; rfl⟩

theorem visibleLines_of_single {c : Char} (hblank : isBlank c = false) {cs : List Char}
    (h : '\n' ∉ c :: cs) : visibleLines (c :: cs) = [trim (c :: cs)] := by
  obtain ⟨rest, hrest⟩ := trim_cons hblank cs
  simp [visibleLines_eq, splitAt_of_not_mem h, hrest]

end Layout

/-! ### The description -/

namespace Metadata

open Layout

def opening (m : Metadata) : List String :=
  if (Text.trimText m.space).isEmpty then [] else ["namespace " ++ Text.trimText m.space ++ " \x7b"]

def headLines (m : Metadata) : List (List Char) := m.opening.flatMap (visibleLines ·.toList)

def comments (m : Metadata) : List (List Char) :=
  (Text.lines m.description.toList).map fun line => Text.trim ('/' :: '/' :: ' ' :: line)

/-- How many braces count as open where the class starts. -/
def classLevel (m : Metadata) : Nat := levelAfter 0 (m.headLines ++ m.comments)

theorem visibleLines_comments (m : Metadata) :
    ((Text.linesOf m.description).map ("// " ++ ·)).flatMap (visibleLines ·.toList) =
    m.comments := by
  have hline : ∀ line ∈ Text.lines m.description.toList, visibleLines ('/' :: '/' :: ' ' :: line) =
      [Text.trim ('/' :: '/' :: ' ' :: line)] := fun line hline =>
    visibleLines_of_single (by decide) (by simpa using Text.newline_not_mem_of_mem_lines hline)
  rw [comments, Text.linesOf, List.map_map, List.flatMap_map, ← List.flatMap_pure_eq_map]
  refine List.flatMap_congr fun line hmem => ?_
  simpa using hline line hmem

theorem visible_of_mem_comments {m : Metadata} {line : List Char} (h : line ∈ m.comments) :
    Visible line := by
  rw [← visibleLines_comments] at h
  obtain ⟨text, -, hline⟩ := List.mem_flatMap.1 h
  exact visible_of_mem hline

end Metadata

namespace Module

open Layout

theorem classLines_eq (m : Metadata) (baseClass className : String) (sections : List SectionMethod)
    (routines : List Routine) (properties : List Property) : ∃ rest, ∀ description,
      classLines { m with description } baseClass className sections routines properties =
        m.opening ++ ((Text.linesOf description).map ("// " ++ ·) ++
          ("class " ++ className ++ " extends " ++ baseClass ++ " \x7b") :: rest) := by
  refine ⟨((classLines { m with description := "" } baseClass className sections routines
    properties).drop m.opening.length).tail, fun description => ?_⟩
  have hnone : Text.linesOf "" = [] := rfl
  by_cases hspace : (Text.trimText m.space).isEmpty = true <;>
    simp only [classLines, Metadata.opening, hspace, hnone] <;> simp

def commentLines (source : String) (m : Metadata) : List (List Char) :=
  ((Text.lines source.toList).drop m.headLines.length).take m.comments.length

def otherLines (source : String) (m : Metadata) : List (List Char) :=
  (Text.lines source.toList).take m.headLines.length ++
    (Text.lines source.toList).drop (m.headLines.length + m.comments.length)

/-- The source of a class in three parts, of which the last is the same for every description. -/
theorem exists_lines (width : Nat) (m : Metadata) (baseClass className : String)
    (sections : List SectionMethod) (routines : List Routine) (properties : List Property) :
    ∃ first rest, (braces first).leading = 0 ∧
      (∀ line ∈ first :: rest, Visible line) ∧ ∀ description, ∀ m' : Metadata,
        m' = { m with description } → Text.lines ((indented width).apply
            (Text.joinLines
              (classLines m' baseClass className sections routines properties))).toList =
          indentFrom width 0 (m'.headLines ++ m'.comments) ++ indentFrom width m'.classLevel
            (first :: rest) := by
  obtain ⟨rest, hrest⟩ := classLines_eq m baseClass className sections routines properties
  obtain ⟨line, lines, hfirst⟩ := visibleLines_cons (c := 'c') (by decide) (by decide)
    ("lass " ++ className ++ " extends " ++ baseClass ++ " \x7b").toList
  have hclass : visibleLines ("class " ++ className ++ " extends " ++ baseClass ++ " \x7b").toList =
      ('c' :: line) :: lines := by
    rw [← hfirst]
    simp
  refine ⟨'c' :: line, lines ++ rest.flatMap (visibleLines ·.toList),
    leading_of_letter (by decide) (by decide) (by decide) (by decide) line,
      fun line hline => ?_, ?_⟩
  · rw [← List.cons_append, ← hclass, List.mem_append] at hline
    rcases hline with hline | hline
    · exact visible_of_mem hline
    · obtain ⟨text, -, hline⟩ := List.mem_flatMap.1 hline
      exact visible_of_mem hline
  · rintro description m' rfl
    rw [lines_apply, visibleLines_joinLines, hrest, List.flatMap_append, List.flatMap_append,
      List.flatMap_cons, hclass, ← List.append_assoc, indentFrom_append]
    have hcomments := Metadata.visibleLines_comments { m with description }
    simp only at hcomments
    rw [hcomments]
    rfl

section Parts

variable {width : Nat} {source : String} {m : Metadata} {back : List (List Char)}
  (h : Text.lines source.toList = indentFrom width 0 (m.headLines ++ m.comments) ++ indentFrom width
    m.classLevel back)

include h

theorem commentLines_eq :
    commentLines source m = indentFrom width (levelAfter 0 m.headLines) m.comments := by
  rw [commentLines, h, indentFrom_append, List.append_assoc,
    List.drop_left' (length_indentFrom _ _ _), List.take_left' (length_indentFrom _ _ _)]

theorem otherLines_eq :
    otherLines source m = indentFrom width 0 m.headLines ++ indentFrom width m.classLevel back := by
  have hlength : (indentFrom width 0 (m.headLines ++ m.comments)).length =
      m.headLines.length + m.comments.length := by
    rw [length_indentFrom, List.length_append]
  rw [otherLines, h, List.drop_left' hlength, indentFrom_append, List.append_assoc,
    List.take_left' (length_indentFrom _ _ _)]

end Parts

/-- Two modules that differ in nothing but the description of their metadata. Their lines are the
same, but for the comment; they are moved alike exactly if as many braces count as open where the
class starts. -/
structure Redescribed (width : Nat) (metadata metadata' : Metadata) (m m' : Module) : Prop where
  className : m'.className = m.className
  sections : m'.sections = m.sections
  routines : m'.routines = m.routines
  properties : m'.properties = m.properties
  comment : (commentLines m.source metadata).map Text.trim = metadata.comments
  comment' : (commentLines m'.source metadata').map Text.trim = metadata'.comments
  lines : (otherLines m'.source metadata').map Text.trim =
    (otherLines m.source metadata).map Text.trim
  indentation : otherLines m'.source metadata' = otherLines m.source metadata ↔
    width = 0 ∨ metadata'.classLevel = metadata.classLevel

theorem redescribed_classLines (width : Nat) (metadata : Metadata)
    (description baseClass className : String) (sections : List SectionMethod)
    (routines : List Routine) (properties : List Property) :
    Redescribed width metadata { metadata with description }
      ⟨className, sections, routines, properties, (indented width).apply
        (Text.joinLines (classLines metadata baseClass className sections routines properties))⟩
      ⟨className, sections, routines, properties, (indented width).apply (Text.joinLines
        (classLines { metadata with description } baseClass className sections routines
          properties))⟩ := by
  obtain ⟨first, rest, hleading, hvisible, hlines⟩ :=
    exists_lines width metadata baseClass className sections routines properties
  have h := hlines metadata.description metadata rfl
  have h' := hlines description { metadata with description } rfl
  have htrim : ∀ level, (indentFrom width level (first :: rest)).map Text.trim = first :: rest :=
    fun level =>
    map_trim_indentFrom width level hvisible
  have hhead : ({ metadata with description } : Metadata).headLines = metadata.headLines := rfl
  refine ⟨rfl, rfl, rfl, rfl, ?_, ?_, ?_, ?_⟩
  · rw [commentLines_eq h]
    exact map_trim_indentFrom width _ fun _ => Metadata.visible_of_mem_comments
  · rw [commentLines_eq h']
    exact map_trim_indentFrom width _ fun _ => Metadata.visible_of_mem_comments
  · rw [otherLines_eq h, otherLines_eq h', hhead, List.map_append, List.map_append, htrim, htrim]
  · rw [otherLines_eq h, otherLines_eq h', hhead, List.append_cancel_left_eq]
    exact indentFrom_eq_iff width hleading rest _ _

/-- The description of a module is a comment: nothing else of the module depends on it but how far
the lines behind it are moved, and that only through the braces in it. -/
theorem generate_redescribed (catalog : Catalog) (width : Nat) (baseClass : String)
    (metadata : Metadata) (description : String) (root : Graph) :
    (∃ e, generate catalog ⟨.indented width, baseClass⟩ metadata root = .error e ∧
      generate catalog ⟨.indented width, baseClass⟩ { metadata with description } root = .error e) ∨
    ∃ m m', generate catalog ⟨.indented width, baseClass⟩ metadata root = .ok m ∧
      generate catalog ⟨.indented width, baseClass⟩ { metadata with description } root = .ok m' ∧
      Redescribed width metadata { metadata with description } m m' := by
  unfold generate
  cases unknownType? catalog root with
  | some e => exact .inl ⟨e, rfl, rfl⟩
  | none =>
    exact .inr ⟨_, _, rfl, rfl, redescribed_classLines width metadata description baseClass _ _ _ _⟩

/-- An unmatched brace in the description moves all lines behind it. -/
theorem brace_in_description_moves_lines : ∃ m m',
    generate .standard ⟨.indented 4, "Behavior"⟩ (.ofName "Player") .empty = .ok m ∧
    generate .standard ⟨.indented 4, "Behavior"⟩
      { Metadata.ofName "Player" with description := "\x7b" } .empty = .ok m' ∧
    otherLines m'.source { Metadata.ofName "Player" with description := "\x7b" } ≠
      otherLines m.source (.ofName "Player") := by
  have hlevel : ({ Metadata.ofName "Player" with description := "\x7b" } : Metadata).classLevel ≠
      (Metadata.ofName "Player").classLevel := by decide +kernel
  refine ⟨_, _, rfl, rfl, fun heq => ?_⟩
  have hmoved :=
    (redescribed_classLines 4 (.ofName "Player") "\x7b" "Behavior" _ _ _ _).indentation.1 heq
  exact hmoved.elim (by decide) hlevel

end Module
end FlowGraph
