import Mathlib.Data.List.TakeWhile
import FlowGraph.Proofs.MemberNames
import FlowGraph.Proofs.Nesting
import FlowGraph.Proofs.ScriptTokens

/-! The expressions of generated source, and their leaves: numbers, truth values, quoted texts,
lists of numbers, names and properties. A leaf is told from all others by its text. -/
namespace FlowGraph

/-! ### Characters -/

namespace Text

/-- The characters that operators are made of, and the mark of a negation. -/
def isSign (c : Char) : Bool := ['+', '-', '*', '/', '>', '<', '=', '&', '|', '!'].contains c

theorem isSign_of_isBlank {c : Char} (h : isBlank c = true) : isSign c = false := by
  rw [isSign, List.contains_eq_mem, decide_eq_false_iff_not]
  intro hmem
  have hall : (['+', '-', '*', '/', '>', '<', '=', '&', '|', '!'].all fun d => !isBlank d) =
      true := by decide
  simpa [h] using List.all_eq_true.1 hall c hmem

theorem not_mem_marks_of_isBlank {c : Char} (h : isBlank c = true) : c ∉ Operand.marks := by
  intro hmem
  have hall : (Operand.marks.all fun d => !isBlank d) = true := by decide
  simpa [h] using List.all_eq_true.1 hall c hmem

theorem not_mem_marks_of_isSign {c : Char} (h : isSign c = true) : c ∉ Operand.marks := by
  intro hmem
  have hall : (Operand.marks.all fun d => !isSign d) = true := by decide
  simpa [h] using List.all_eq_true.1 hall c hmem

/-- Ranges that lie apart have no character in common. -/
theorem inRanges_eq_false_of_apart {ranges others : List (Nat × Nat)}
    (hapart : (ranges.all fun r => others.all fun q => r.2.blt q.1 || q.2.blt r.1) = true)
    {c : Char} (h : inRanges ranges c = true) : inRanges others c = false := by
  obtain ⟨r, hr, hc⟩ := List.any_eq_true.1 h
  refine List.any_eq_false.2 fun q hq hc' => ?_
  have hrq := List.all_eq_true.1 (List.all_eq_true.1 hapart r hr) q hq
  simp only [Bool.and_eq_true, Bool.or_eq_true, decide_eq_true_eq, Nat.blt_eq] at hc hc' hrq
  omega

theorem isNameChar_eq_false_of_apart {ranges : List (Nat × Nat)}
    (hapart : (ranges.all fun r => (letterRanges ++ numeralRanges).all
      fun q => r.2.blt q.1 || q.2.blt r.1) = true)
    (hmark : inRanges ranges '_' = false) {c : Char} (h : inRanges ranges c = true) :
    isNameChar c = false := by
  have hranges := inRanges_eq_false_of_apart hapart h
  rw [inRanges, List.any_append, Bool.or_eq_false_iff] at hranges
  have hne : c ≠ '_' := by
    rintro rfl
    rw [hmark] at h
    cases h
  rw [isNameChar, isLetter, isNumeral, inRanges, inRanges, hranges.1, hranges.2,
    beq_eq_false_iff_ne.2 hne]
  rfl

theorem isNameChar_of_isBlank {c : Char} (h : isBlank c = true) : isNameChar c = false :=
  isNameChar_eq_false_of_apart (by decide +kernel) (by decide) h

def punctuation : List Char :=
  ['+', '-', '*', '/', '>', '<', '=', '&', '|', '!'] ++ (Operand.marks ++ [',', '.'])

theorem not_mem_punctuation {c : Char} (h : isNameChar c = true) : c ∉ punctuation := by
  intro hmem
  -- Punctuation lies in four gaps between the letters and digits of ASCII.
  have hgaps : (punctuation.all
    (inRanges [(0x21, 0x2f), (0x3c, 0x3e), (0x5b, 0x5d), (0x7c, 0x7c)])) = true := by decide
  have hnot :=
    isNameChar_eq_false_of_apart (by decide +kernel) (by decide) (List.all_eq_true.1 hgaps c hmem)
  rw [h] at hnot
  cases hnot

theorem isNameChar_of_mem_punctuation {c : Char} (h : c ∈ punctuation) : isNameChar c = false :=
  Bool.eq_false_iff.2 fun hname => not_mem_punctuation hname h

theorem mem_dropWhile_or {p : Char → Bool} {c : Char} {cs : List Char} (h : c ∈ cs) :
    p c = true ∨ c ∈ cs.dropWhile p := by
  rw [← List.takeWhile_append_dropWhile (p := p) (l := cs), List.mem_append] at h
  exact h.imp_left List.mem_takeWhile_imp

theorem mem_trim_or {c : Char} {cs : List Char} (h : c ∈ cs) : isBlank c = true ∨ c ∈ trim cs := by
  rcases mem_dropWhile_or (p := isBlank) h with hblank | h
  · exact .inl hblank
  · rw [trim, List.mem_reverse]
    exact mem_dropWhile_or (List.mem_reverse.2 h)

theorem trim_eq_self {cs : List Char} (h : ∀ c ∈ cs, isBlank c = false) : trim cs = cs := by
  have hdrop : ∀ {ds : List Char}, (∀ c ∈ ds, isBlank c = false) → ds.dropWhile isBlank = ds :=
    fun {ds} hds =>
    List.dropWhile_eq_self_iff.2 fun _ hblank => by simp [hds _ (List.getElem_mem _)] at hblank
  rw [trim, hdrop h, hdrop fun c hc => h c (List.mem_reverse.1 hc), List.reverse_reverse]

end Text

/-! ### Expressions -/

inductive Operator where
  | add
  | subtract
  | multiply
  | divide
  | greater
  | less
  | equal
  | and
  | or
deriving DecidableEq

namespace Operator

def chars : Operator → List Char
  | add => ['+']
  | subtract => ['-']
  | multiply => ['*']
  | divide => ['/']
  | greater => ['>']
  | less => ['<']
  | equal => ['=', '=']
  | and => ['&', '&']
  | or => ['|', '|']

theorem isSign_of_mem {op : Operator} {c : Char} (h : c ∈ op.chars) : Text.isSign c = true := by
  have hall : op.chars.all Text.isSign = true := by cases op <;> decide
  exact List.all_eq_true.1 hall c h

theorem exists_cons (op : Operator) : ∃ c cs, op.chars = c :: cs := by
  cases op <;> exact ⟨_, _, rfl⟩

/-- The operator ends at the blank. -/
theorem eq_of_chars_append {op op' : Operator} {ys zs : List Char}
    (h : op.chars ++ ' ' :: ys = op'.chars ++ zs) : op = op' ∧ zs = ' ' :: ys := by
  cases op <;> cases op' <;> simp_all [chars]

end Operator

inductive Expression where
  | literal (v : Value)
  | name (s : String)
  /-- A property of the module. -/
  | property (s : String)
  | vector (x y z : Expression)
  | negation (x : Expression)
  | binary (op : Operator) (x y : Expression)
deriving DecidableEq

namespace Expression

open Operand Text

/-- Words that stand for values, so that they are no names. -/
def valueWords : List String := ["true", "false", "NaN", "Infinity"]

/-- What is read in one piece and has no brackets, quotes or blanks. -/
inductive Word : List Char → Expression → Prop
  | number {cs : List Char} {x : Number} (h : Script.Spelled Number.sourceLayout cs x) :
      Word cs (literal (.number x))
  | bool (b : Bool) : Word (Value.boolText b).toList (literal (.bool b))
  | name {s : String} (h : Module.IsName s) (hfree : s ∉ valueWords) : Word s.toList (name s)
  | property {s : String} (h : Module.IsName s) :
      Word ('t' :: 'h' :: 'i' :: 's' :: '.' :: s.toList) (property s)

inductive Items : List Char → List Number → Prop
  | none {cs : List Char} (hblank : ∀ c ∈ cs, isBlank c = true) : Items cs []
  | last {cs : List Char} {x : Number} (h : Script.Spelled Number.sourceLayout (trim cs) x) :
      Items cs [x]
  | more {cs rest : List Char} {x y : Number} {ns : List Number}
      (h : Script.Spelled Number.sourceLayout (trim cs) x)
      (hrest : Items rest (y :: ns)) : Items (cs ++ ',' :: rest) (x :: y :: ns)

inductive Leaf : List Char → Expression → Prop
  | word {cs : List Char} {e : Expression} (h : Word cs e) : Leaf cs e
  | text {cs : List Char} (h : Quoted cs) :
      Leaf ('\x22' :: (cs ++ ['\x22'])) (literal (.text (String.ofList (unescapeAll cs))))
  | vector {cs : List Char} {ns : List Number} (h : Items cs ns) :
      Leaf ('[' :: (cs ++ [']'])) (literal (.vector ns))

/-! ### Leaves -/

def isWordPart (c : Char) : Bool := isNameChar c || c == '.'

theorem isWordPart_plain {c : Char} (h : isWordPart c = true) :
    isSign c = false ∧ isBlank c = false ∧ c ∉ marks ∧ c ≠ ',' := by
  rw [isWordPart, Bool.or_eq_true, beq_iff_eq] at h
  rcases h with h | rfl
  · have hnot := not_mem_punctuation h
    simp only [punctuation, List.mem_append, not_or] at hnot
    refine ⟨?_, Bool.eq_false_iff.2 fun hblank => ?_, hnot.2.1,
      fun hc => hnot.2.2 (hc ▸ List.mem_cons_self)⟩
    · rw [isSign, List.contains_eq_mem, decide_eq_false_iff_not]
      exact hnot.1
    · rw [isNameChar_of_isBlank hblank] at h
      cases h
  · decide

theorem isWordPart_of_isDigit {c : Char} (h : Script.isDigit c = true) : isWordPart c = true := by
  rw [isWordPart, Module.isNameChar_of_isNumeral
    (Module.isNumeral_of_bounds (Script.isDigit_bounds h)), Bool.true_or]

theorem isWordPart_of_numeral {cs : List Char} {d : Decimal} (h : Script.Numeral cs d) :
    ∀ c ∈ cs, isWordPart c = true := by
  cases h with
  | whole _ digits => exact fun c hc => isWordPart_of_isDigit (digits c hc)
  | fraction _ digits _ moreDigits =>
    intro c hc
    rcases List.mem_append.1 hc with hc | hc
    · exact isWordPart_of_isDigit (digits c hc)
    · rcases List.mem_cons.1 hc with rfl | hc
      · decide +kernel
      · exact isWordPart_of_isDigit (moreDigits c hc)

/-- A word has at most one sign, and that in front. -/
def IsWord (cs : List Char) : Prop :=
  ∃ rest, (cs = rest ∨ cs = '-' :: rest) ∧ rest ≠ [] ∧ ∀ c ∈ rest, isWordPart c = true

theorem isWord_of_spelled {cs : List Char} {x : Number}
    (h : Script.Spelled Number.sourceLayout cs x) : IsWord cs := by
  have hnan : "NaN".toList.all isWordPart = true := by decide +kernel
  have hinfinite : "Infinity".toList.all isWordPart = true := by decide +kernel
  cases h with
  | nan => exact ⟨_, .inl rfl, by decide, List.all_eq_true.1 hnan⟩
  | infinite => exact ⟨_, .inl rfl, by decide, List.all_eq_true.1 hinfinite⟩
  | minusInfinite => exact ⟨_, .inr rfl, by decide, List.all_eq_true.1 hinfinite⟩
  | unsigned numeral =>
    obtain ⟨c, cs', rfl, -⟩ := numeral.exists_cons
    exact ⟨_, .inl rfl, List.cons_ne_nil _ _, isWordPart_of_numeral numeral⟩
  | negative numeral =>
    obtain ⟨c, cs', rfl, -⟩ := numeral.exists_cons
    exact ⟨_, .inr rfl, List.cons_ne_nil _ _, isWordPart_of_numeral numeral⟩

theorem isWordPart_of_isName {s : String} (h : Module.IsName s) :
    ∀ c ∈ s.toList, isWordPart c = true := fun c hc => by
  rw [isWordPart, List.all_eq_true.1 h.1 c hc, Bool.true_or]

theorem Word.isWord {cs : List Char} {e : Expression} (h : Word cs e) : IsWord cs := by
  cases h with
  | number h => exact isWord_of_spelled h
  | bool b =>
    have hall : (Value.boolText b).toList.all isWordPart = true := by cases b <;> decide +kernel
    exact ⟨_, .inl rfl, by cases b <;> decide, List.all_eq_true.1 hall⟩
  | name h =>
    refine ⟨_, .inl rfl, fun hnil => ?_, isWordPart_of_isName h⟩
    obtain ⟨c, hhead, -⟩ := h.2
    rw [hnil] at hhead
    cases hhead
  | @property s h =>
    have hthis : ['t', 'h', 'i', 's', '.'].all isWordPart = true := by decide +kernel
    refine ⟨_, .inl rfl, List.cons_ne_nil _ _, fun c hc => ?_⟩
    rcases List.mem_append.1 (show c ∈ ['t', 'h', 'i', 's', '.'] ++ s.toList from hc) with hc | hc
    · exact List.all_eq_true.1 hthis c hc
    · exact isWordPart_of_isName h c hc

/-- What leaves have in common: they start and end with a character of their own, and have no comma
and no further sign outside brackets and quotes. -/
structure Atom (cs : List Char) : Prop where
  closed : Closed cs
  isOpen_eq : isOpen .plain 0 cs = false
  first : ∃ c rest, cs = c :: rest ∧ isBlank c = false ∧ c ≠ '(' ∧ c ≠ '!' ∧ c ≠ ','
  last : ∃ front c, cs = front ++ [c] ∧ isBlank c = false ∧ isSign c = false
  inside : ∀ xs c ys, cs = xs ++ c :: ys → scan (.plain, 0) xs = (.plain, 0) →
    (c = ',' ∨ isSign c = true) → xs = []

theorem isOpen_of_no_blank {cs : List Char} (h : ∀ c ∈ cs, c ∉ marks ∧ isBlank c = false) :
    isOpen .plain 0 cs = false := by
  induction cs with
  | nil => rfl
  | cons c cs ih =>
    obtain ⟨hmark, hblank⟩ := h c List.mem_cons_self
    rw [isOpen_cons, hblank, Bool.and_false, Bool.false_and, Bool.false_or,
      step_of_not_mem_marks hmark]
    exact ih fun d hd => h d (List.mem_cons_of_mem _ hd)

theorem IsWord.plain {cs : List Char} (h : IsWord cs) {c : Char} (hc : c ∈ cs) :
    c ∉ marks ∧ isBlank c = false ∧ c ≠ ',' ∧ c ≠ '!' := by
  obtain ⟨rest, hcs, -, hrest⟩ := h
  have hpart : c ∈ rest → c ∉ marks ∧ isBlank c = false ∧ c ≠ ',' ∧ c ≠ '!' := fun hc => by
    obtain ⟨hsign, hblank, hmark, hcomma⟩ := isWordPart_plain (hrest c hc)
    refine ⟨hmark, hblank, hcomma, ?_⟩
    rintro rfl
    exact absurd hsign (by decide)
  rcases hcs with rfl | rfl
  · exact hpart hc
  · rcases List.mem_cons.1 hc with rfl | hc
    · decide
    · exact hpart hc

theorem IsWord.ne_nil {cs : List Char} (h : IsWord cs) : cs ≠ [] := by
  obtain ⟨rest, rfl | rfl, hne, -⟩ := h
  · exact hne
  · exact List.cons_ne_nil _ _

theorem IsWord.atom {cs : List Char} (h : IsWord cs) : Atom cs := by
  have hplain := fun c hc => h.plain (c := c) hc
  obtain ⟨c, tail, hcons⟩ := List.exists_cons_of_ne_nil h.ne_nil
  obtain ⟨rest, hcs, hne, hrest⟩ := h
  have hc := hplain c (hcons ▸ List.mem_cons_self)
  obtain ⟨front, last, hlast⟩ : ∃ front last, rest = front ++ [last] :=
    ⟨_, _, (List.dropLast_concat_getLast hne).symm⟩
  have hend := isWordPart_plain (hrest last (hlast ▸ List.mem_concat_self))
  exact {
    closed := .of_not_mem_marks fun c hc => (hplain c hc).1
    isOpen_eq := isOpen_of_no_blank fun c hc => ⟨(hplain c hc).1, (hplain c hc).2.1⟩
    first := ⟨c, tail, hcons, hc.2.1, fun hparen => hc.1 (hparen ▸ by decide), hc.2.2.2, hc.2.2.1⟩
    last := by
      rcases hcs with rfl | rfl
      · exact ⟨front, last, hlast, hend.2.1, hend.1⟩
      · exact ⟨'-' :: front, last, by rw [hlast, List.cons_append], hend.2.1, hend.1⟩
    inside := fun xs d ys hsplit _ hd => by
      have hmem : d ∈ cs := hsplit ▸ List.mem_append_right _ List.mem_cons_self
      have hsign := hd.resolve_left (hplain d hmem).2.2.1
      cases xs with
      | nil => rfl
      | cons b xs =>
        -- The sign would stand behind the first character, where only parts of words are.
        have hbehind : d ∈ rest := by
          rcases hcs with rfl | rfl
          · exact hmem
          · rw [(List.cons.inj hsplit).2]
            exact List.mem_append_right _ List.mem_cons_self
        rw [(isWordPart_plain (hrest d hbehind)).1] at hsign
        cases hsign }

/-- A text between brackets or quotes is in one piece. -/
theorem atom_of_sealed {l r : Char} {cs : List Char} (hclosed : Closed (l :: (cs ++ [r])))
    (hsealed : Sealed (l :: (cs ++ [r]))) (hopen : isOpen .plain 0 (l :: (cs ++ [r])) = false)
    (hl : l = '\x22' ∨ l = '[') (hr : r = '\x22' ∨ r = ']') : Atom (l :: (cs ++ [r])) where
  closed := hclosed
  isOpen_eq := hopen
  first := ⟨l, cs ++ [r], rfl, by rcases hl with rfl | rfl <;> decide⟩
  last := ⟨l :: cs, r, rfl, by rcases hr with rfl | rfl <;> decide⟩
  inside xs c ys hsplit hscan _ := hsealed xs c ys hsplit hscan

/-- What is around a number in a list of numbers is blank. -/
theorem isBlank_or_plain {cs : List Char} {x : Number}
    (h : Script.Spelled Number.sourceLayout (trim cs) x) {c : Char} (hc : c ∈ cs) :
    isBlank c = true ∨ c ∉ marks ∧ c ≠ ',' := by
  refine (mem_trim_or hc).imp_right fun hc => ?_
  have hplain := (isWord_of_spelled h).plain hc
  exact ⟨hplain.1, hplain.2.2.1⟩

theorem comma_not_mem {cs : List Char} {x : Number}
    (h : Script.Spelled Number.sourceLayout (trim cs) x) : ',' ∉ cs := by
  intro hc
  rcases isBlank_or_plain h hc with hblank | hplain
  · exact absurd hblank (by decide)
  · exact hplain.2 rfl

theorem Items.not_mem_marks {cs : List Char} {ns : List Number} (h : Items cs ns) :
    ∀ c ∈ cs, c ∉ marks := by
  have hpart : ∀ {cs : List Char} {x : Number}, Script.Spelled Number.sourceLayout (trim cs) x →
      ∀ c ∈ cs, c ∉ marks := fun hx c hc =>
    (isBlank_or_plain hx hc).elim not_mem_marks_of_isBlank And.left
  induction h with
  | none hblank => exact fun c hc => not_mem_marks_of_isBlank (hblank c hc)
  | last hx => exact hpart hx
  | more hx _ ih =>
    intro c hc
    rcases List.mem_append.1 hc with hc | hc
    · exact hpart hx c hc
    · rcases List.mem_cons.1 hc with rfl | hc
      · decide
      · exact ih c hc

theorem Leaf.atom {cs : List Char} {e : Expression} (h : Leaf cs e) : Atom cs := by
  cases h with
  | word h => exact h.isWord.atom
  | text h => exact atom_of_sealed h.closed h.sealed h.isOpen_eq (.inl rfl) (.inl rfl)
  | vector h =>
    have hclosed := Closed.of_not_mem_marks h.not_mem_marks
    exact atom_of_sealed (hclosed.bracketed (.inr rfl) (.inr rfl)) (hclosed.sealed (.inr rfl))
      (hclosed.isOpen_bracketed (.inr rfl) (.inr rfl)) (.inr rfl) (.inr rfl)

/-! ### Leaves have one reading -/

theorem numeral_unique {cs cs' : List Char} {d d' : Decimal} (h : Script.Numeral cs d)
    (h' : Script.Numeral cs' d') (heq : cs = cs') : d = d' := by
  have hpoint : ∀ {ds : List Char}, (∀ c ∈ ds, Script.isDigit c = true) → '.' ∉ ds :=
    fun hds hmem =>
    absurd (hds '.' hmem) (by decide)
  cases h with
  | whole _ digits =>
    cases h' with
    | whole => rw [heq]
    | fraction => exact absurd (heq ▸ List.mem_append_right _ List.mem_cons_self) (hpoint digits)
  | fraction _ digits =>
    cases h' with
    | whole _ digits' =>
      exact absurd (heq ▸ List.mem_append_right _ List.mem_cons_self) (hpoint digits')
    | fraction _ digits' =>
      obtain ⟨rfl, rfl⟩ := Scope.eq_of_append_mark (hpoint digits) (hpoint digits') heq
      rfl

/-- The part of a number behind its sign, and the number for each sign. -/
def Unsigned (cs : List Char) (value : Bool → Number) : Prop :=
  cs = "Infinity".toList ∧ value = .infinity ∨ ∃ d, Script.Numeral cs d ∧
    value = (Decimal.toNumber · d)

theorem Unsigned.exists_cons {cs : List Char} {value : Bool → Number} (h : Unsigned cs value) :
    ∃ c rest, cs = c :: rest ∧ (c = 'I' ∨ Script.isDigit c = true) := by
  rcases h with ⟨rfl, -⟩ | ⟨d, numeral, -⟩
  · exact ⟨_, _, rfl, .inl rfl⟩
  · obtain ⟨c, rest, rfl, hdigit⟩ := numeral.exists_cons
    exact ⟨c, rest, rfl, .inr hdigit⟩

theorem Unsigned.unique {cs : List Char} {value value' : Bool → Number} (h : Unsigned cs value)
    (h' : Unsigned cs value') : value = value' := by
  have hdigits : ∀ {cs : List Char} {d : Decimal}, Script.Numeral cs d → cs ≠ "Infinity".toList :=
    fun numeral hcs => by
    obtain ⟨c, rest, rfl, hdigit⟩ := numeral.exists_cons
    rw [(List.cons.inj hcs).1] at hdigit
    exact absurd hdigit (by decide)
  rcases h with ⟨hcs, rfl⟩ | ⟨d, numeral, rfl⟩ <;> rcases h' with ⟨hcs', rfl⟩ | ⟨d', numeral', rfl⟩
  · rfl
  · exact absurd hcs (hdigits numeral')
  · exact absurd hcs' (hdigits numeral)
  · rw [numeral_unique numeral numeral' rfl]

/-- The text of a number in source: a word for what is no number, or a sign or none before the
rest. -/
theorem spelled_cases {cs : List Char} {x : Number} (h : Script.Spelled Number.sourceLayout cs x) :
    cs = "NaN".toList ∧ x = .nan ∨ ∃ negative rest value,
      cs = (if negative then '-' :: rest else rest) ∧ Unsigned rest value ∧ x = value negative := by
  cases h with
  | nan => exact .inl ⟨rfl, rfl⟩
  | infinite => exact .inr ⟨false, _, _, rfl, .inl ⟨rfl, rfl⟩, rfl⟩
  | minusInfinite => exact .inr ⟨true, _, _, rfl, .inl ⟨rfl, rfl⟩, rfl⟩
  | unsigned numeral => exact .inr ⟨false, _, _, rfl, .inr ⟨_, numeral, rfl⟩, rfl⟩
  | negative numeral => exact .inr ⟨true, _, _, rfl, .inr ⟨_, numeral, rfl⟩, rfl⟩

/-- The sign is told by the first character. -/
theorem Unsigned.split_unique {negative negative' : Bool} {cs cs' : List Char}
    {value value' : Bool → Number} (h : Unsigned cs value) (h' : Unsigned cs' value')
    (heq : (if negative then '-' :: cs else cs) = if negative' then '-' :: cs' else cs') :
    negative = negative' ∧ cs = cs' := by
  have hsign : ∀ {cs : List Char} {value : Bool → Number}, Unsigned cs value → ∀ rest,
      cs ≠ '-' :: rest :=
    fun h rest hcs => by
      obtain ⟨c, tail, htail, hc⟩ := h.exists_cons
      rw [(List.cons.inj (htail.symm.trans hcs)).1] at hc
      exact absurd hc (by decide)
  cases negative <;> cases negative'
  · exact ⟨rfl, heq⟩
  · exact absurd heq (hsign h _)
  · exact absurd heq.symm (hsign h' _)
  · exact ⟨rfl, (List.cons.inj heq).2⟩

theorem spelled_unique {cs : List Char} {x y : Number} (h : Script.Spelled Number.sourceLayout cs x)
    (h' : Script.Spelled Number.sourceLayout cs y) : x = y := by
  have hnan : ∀ {negative : Bool} {rest : List Char} {value : Bool → Number}, Unsigned rest value →
      "NaN".toList ≠ if negative then '-' :: rest else rest := fun {negative _ _} hrest heq => by
    obtain ⟨c, tail, rfl, hc⟩ := hrest.exists_cons
    cases negative with
    | false =>
      rw [← (List.cons.inj heq).1] at hc
      exact absurd hc (by decide)
    | true => exact absurd (List.cons.inj heq).1 (by decide)
  rcases spelled_cases h with ⟨rfl, rfl⟩ | ⟨negative, rest, value, rfl, hrest, rfl⟩ <;>
    rcases spelled_cases h' with ⟨hcs, rfl⟩ | ⟨negative', rest', value', hcs, hrest', rfl⟩
  · rfl
  · exact absurd hcs (hnan hrest')
  · exact absurd hcs.symm (hnan hrest)
  · obtain ⟨rfl, rfl⟩ := hrest.split_unique hrest' hcs
    rw [hrest.unique hrest']

/-- A number starts with a digit or a sign, unless it is one of the words for values. -/
theorem not_spelled_of_letter {c : Char} {rest : List Char} {x : Number}
    (hname : isNameChar c = true) (hnumeral : isNumeral c = false) (hnan : c :: rest ≠ "NaN".toList)
    (hinfinite : c :: rest ≠ "Infinity".toList) :
    ¬Script.Spelled Number.sourceLayout (c :: rest) x := by
  have hdigits : ∀ {d : Decimal}, ¬Script.Numeral (c :: rest) d := fun numeral => by
    obtain ⟨c', rest', hcs, hdigit⟩ := numeral.exists_cons
    rw [← (List.cons.inj hcs).1] at hdigit
    rw [Module.isNumeral_of_bounds (Script.isDigit_bounds hdigit)] at hnumeral
    cases hnumeral
  intro h
  rcases spelled_cases h with ⟨hcs, -⟩ | ⟨negative, cs, value, hcs, hunsigned, -⟩
  · exact hnan hcs
  · cases negative with
    | true =>
      rw [(List.cons.inj hcs).1] at hname
      exact not_mem_punctuation hname (by decide)
    | false =>
      obtain rfl : c :: rest = cs := hcs
      rcases hunsigned with ⟨hcs, -⟩ | ⟨d, numeral, -⟩
      · exact hinfinite hcs
      · exact hdigits numeral

theorem not_spelled_boolText (b : Bool) (x : Number) :
    ¬Script.Spelled Number.sourceLayout (Value.boolText b).toList x := by
  cases b
  · exact not_spelled_of_letter (c := 'f') (by decide +kernel) (by decide +kernel)
      (by decide) (by decide)
  · exact not_spelled_of_letter (c := 't') (by decide +kernel) (by decide +kernel)
      (by decide) (by decide)

theorem not_spelled_of_isName {s : String} (h : Module.IsName s) (hfree : s ∉ valueWords)
    (x : Number) : ¬Script.Spelled Number.sourceLayout s.toList x := by
  have hne : ∀ w ∈ valueWords, s.toList ≠ w.toList :=
    fun w hw heq => hfree (String.toList_inj.1 heq ▸ hw)
  have hnan := hne "NaN" (by decide)
  have hinfinite := hne "Infinity" (by decide)
  obtain ⟨hall, c, hhead, hnumeral⟩ := h
  cases hcs : s.toList with
  | nil =>
    rw [hcs] at hhead
    cases hhead
  | cons d rest =>
    rw [hcs] at hall hhead hnan hinfinite
    obtain rfl := Option.some.inj hhead
    exact not_spelled_of_letter (List.all_eq_true.1 hall _ List.mem_cons_self) hnumeral
      hnan hinfinite

theorem boolText_mem_valueWords (b : Bool) : Value.boolText b ∈ valueWords := by
  cases b <;> decide

theorem eq_of_boolText_eq {b b' : Bool} (h : Value.boolText b = Value.boolText b') : b = b' := by
  revert h
  cases b <;> cases b' <;> decide

theorem point_not_mem {s : String} (h : Module.IsName s) : '.' ∉ s.toList := fun hmem =>
  not_mem_punctuation (List.all_eq_true.1 h.1 _ hmem) (by decide)

theorem Word.unique {cs cs' : List Char} {e e' : Expression} (h : Word cs e) (h' : Word cs' e')
    (heq : cs = cs') : e = e' := by
  have hproperty : ∀ (x : Number) rest,
      ¬Script.Spelled Number.sourceLayout ('t' :: 'h' :: 'i' :: 's' :: '.' :: rest) x :=
    fun x rest => not_spelled_of_letter (by decide +kernel) (by decide +kernel)
      (fun hcs => absurd (List.cons.inj hcs).1 (by decide))
      fun hcs => absurd (List.cons.inj hcs).1 (by decide)
  have hbool : ∀ (b : Bool) rest, (Value.boolText b).toList ≠ 't' :: 'h' :: 'i' :: 's' :: '.' ::
      rest := fun b rest hcs => by
    cases b
    · exact absurd (List.cons.inj hcs).1 (by decide)
    · exact absurd (List.cons.inj (List.cons.inj hcs).2).1 (by decide)
  have hpoint : ∀ {s : String} rest, Module.IsName s →
      s.toList ≠ 't' :: 'h' :: 'i' :: 's' :: '.' :: rest :=
    fun rest hs hcs => point_not_mem hs (by rw [hcs]; simp)
  cases h with
  | number h =>
    cases h' with
    | number h' => rw [spelled_unique h (heq ▸ h')]
    | bool b => exact absurd (heq ▸ h) (not_spelled_boolText b _)
    | name h' hfree' => exact absurd (heq ▸ h) (not_spelled_of_isName h' hfree' _)
    | property => exact absurd (heq ▸ h) (hproperty _ _)
  | bool b =>
    cases h' with
    | number h' => exact absurd (heq ▸ h') (not_spelled_boolText b _)
    | bool b' => rw [eq_of_boolText_eq (String.toList_inj.1 heq)]
    | name _ hfree' => exact absurd (String.toList_inj.1 heq ▸ boolText_mem_valueWords b) hfree'
    | property => exact absurd heq (hbool b _)
  | name h hfree =>
    cases h' with
    | number h' => exact absurd (heq ▸ h') (not_spelled_of_isName h hfree _)
    | bool b => exact absurd (String.toList_inj.1 heq.symm ▸ boolText_mem_valueWords b) hfree
    | name => rw [String.toList_inj.1 heq]
    | property => exact absurd heq (hpoint _ h)
  | property =>
    cases h' with
    | number h' => exact absurd (heq ▸ h') (hproperty _ _)
    | bool b => exact absurd heq.symm (hbool b _)
    | name h' => exact absurd heq.symm (hpoint _ h')
    | property =>
      have hcs : ['t', 'h', 'i', 's', '.'] ++ _ = ['t', 'h', 'i', 's', '.'] ++ _ := heq
      rw [String.toList_inj.1 (List.append_cancel_left hcs)]

theorem Items.unique {cs cs' : List Char} {ns ns' : List Number} (h : Items cs ns)
    (h' : Items cs' ns') (heq : cs = cs') : ns = ns' := by
  have hblank : ∀ {cs : List Char} {x : Number}, (∀ c ∈ cs, isBlank c = true) →
      ¬Script.Spelled Number.sourceLayout (trim cs) x := fun {cs _} hcs hx => by
    have hdrop : cs.dropWhile isBlank = [] := List.dropWhile_eq_nil_iff.2 hcs
    rw [trim, hdrop] at hx
    exact (isWord_of_spelled hx).ne_nil rfl
  have hcomma : ∀ {cs rest : List Char}, ',' ∈ cs ++ ',' :: rest :=
    List.mem_append_right _ List.mem_cons_self
  induction h generalizing cs' ns' with
  | none hcs =>
    cases h' with
    | none => rfl
    | last hx => exact absurd hx (hblank (heq ▸ hcs))
    | more => exact absurd (hcs ',' (heq ▸ hcomma)) (by decide)
  | last hx =>
    cases h' with
    | none hcs => exact absurd hx (hblank (heq ▸ hcs))
    | last hx' => rw [spelled_unique hx (heq ▸ hx')]
    | more => exact absurd (heq ▸ hcomma) (comma_not_mem hx)
  | more hx _ ih =>
    cases h' with
    | none hcs => exact absurd (hcs ',' (heq ▸ hcomma)) (by decide)
    | last hx' => exact absurd (heq ▸ hcomma) (comma_not_mem hx')
    | more hx' hrest' =>
      obtain ⟨rfl, hrest⟩ := Scope.eq_of_append_mark (comma_not_mem hx) (comma_not_mem hx') heq
      rw [spelled_unique hx hx', ih hrest' hrest]

theorem Leaf.unique {cs cs' : List Char} {e e' : Expression} (h : Leaf cs e) (h' : Leaf cs' e')
    (heq : cs = cs') : e = e' := by
  have hword : ∀ {c : Char} {rest : List Char} {e : Expression}, Word (c :: rest) e → c ∉ marks :=
    fun h =>
    (h.isWord.plain List.mem_cons_self).1
  cases h with
  | word h =>
    cases h' with
    | word h' => exact h.unique h' heq
    | text => exact absurd (by decide) (hword (heq ▸ h))
    | vector => exact absurd (by decide) (hword (heq ▸ h))
  | text =>
    cases h' with
    | word h' => exact absurd (by decide) (hword (heq ▸ h'))
    | text => rw [List.append_cancel_right (List.cons.inj heq).2]
    | vector => exact absurd (List.cons.inj heq).1 (by decide)
  | vector h =>
    cases h' with
    | word h' => exact absurd (by decide) (hword (heq ▸ h'))
    | text => exact absurd (List.cons.inj heq).1 (by decide)
    | vector h' => rw [h.unique h' (List.append_cancel_right (List.cons.inj heq).2)]

theorem not_leaf_vec (rest : List Char) {e : Expression} :
    ¬Leaf (['v', 'e', 'c', '3'] ++ '(' :: rest) e := by
  intro h
  generalize htext : ['v', 'e', 'c', '3'] ++ '(' :: rest = text at h
  cases h with
  | word h =>
    have hmem : '(' ∈ text := htext ▸ List.mem_append_right _ List.mem_cons_self
    exact (h.isWord.plain hmem).1 (by decide)
  | text => exact absurd (List.cons.inj htext).1 (by decide)
  | vector => exact absurd (List.cons.inj htext).1 (by decide)

end Expression
end FlowGraph
