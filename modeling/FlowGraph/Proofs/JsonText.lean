import FlowGraph.Json.Reader
import FlowGraph.Proofs.NumberText
import Mathlib.Data.List.Basic
import Mathlib.Data.List.TakeDrop

/-! A JSON value is read back from its text: the characters that are written for a value have its
lexemes, with anything behind them that ends a number, and the lexemes of a value are parsed as
it. -/
namespace FlowGraph.Json

/-! ### Strings -/

theorem hexValue?_hexDigit {n : Nat} (hn : n < 16) : hexValue? (hexDigit n) = some n := by
  have h : ∀ n : Fin 16, hexValue? (hexDigit n) = some n.val := by decide
  exact h ⟨n, hn⟩

theorem pieces?_short {e c : Char} (he : e ≠ 'u') (hc : shortEscape? e = some c)
    (rest : List Char) :
    pieces? ('\\' :: e :: rest) = (pieces? rest).map fun q => (.char c :: q.1, q.2) := by
  rw [pieces?]
  · rw [hc]
    cases pieces? rest <;> rfl
  · rintro _ _ _ _ _ rfl
    exact absurd rfl he

theorem pieces?_unit {n : Nat} (hn : n < 256) (rest : List Char) :
    pieces? ('\\' :: 'u' :: '0' :: '0' :: hexDigit (n / 16) :: hexDigit (n % 16) :: rest) =
      (pieces? rest).map fun q => (.unit n :: q.1, q.2) := by
  have hunit : unit? '0' '0' (hexDigit (n / 16)) (hexDigit (n % 16)) = some n := by
    rw [unit?, hexValue?_hexDigit (by omega), hexValue?_hexDigit (by omega)]
    simp only [show hexValue? '0' = some 0 from rfl, Option.bind_eq_bind, Option.bind_some,
      Option.pure_def, Option.some.injEq]
    omega
  rw [pieces?, hunit]
  cases pieces? rest <;> rfl

theorem pieces?_plain {c : Char} (hquote : c ≠ '\x22') (hslash : c ≠ '\\') (hc : ¬c.toNat < 0x20)
    (rest : List Char) :
    pieces? (c :: rest) = (pieces? rest).map fun q => (.char c :: q.1, q.2) := by
  rw [pieces?]
  · rw [if_neg hc]
    cases pieces? rest <;> rfl
  · exact hquote
  · exact fun _ _ _ _ _ h _ => hslash h
  · exact fun _ _ h _ => hslash h

/-- A written character is one piece of the string, and the piece stands for it. -/
theorem exists_piece (c : Char) : ∃ p,
    (∀ rest, pieces? (escapeChar c ++ rest) = (pieces? rest).map fun q => (p :: q.1, q.2)) ∧
    ∀ ps, text? (p :: ps) = (text? ps).map (c :: ·) := by
  unfold escapeChar
  split
  all_goals try exact ⟨.char _, pieces?_short (by decide) rfl, fun ps => by rw [text?]⟩
  next hquote hslash _ _ _ _ _ =>
    split
    · next hcontrol =>
      refine ⟨.unit c.toNat, pieces?_unit (by omega), fun ps => ?_⟩
      have hhigh : isHigh c.toNat = false := by simp [isHigh]; omega
      have hlow : isLow c.toNat = false := by simp [isLow]; omega
      rw [text?.eq_def]
      simp [hhigh, hlow]
    · next hplain =>
      exact ⟨.char c, pieces?_plain hquote hslash hplain, fun ps => by rw [text?]⟩

theorem exists_pieces (cs rest : List Char) : ∃ ps,
    pieces? (cs.flatMap escapeChar ++ '\x22' :: rest) = some (ps, rest) ∧ text? ps = some cs := by
  induction cs with
  | nil => exact ⟨[], by simp [pieces?], by rw [text?]⟩
  | cons c cs ih =>
    obtain ⟨ps, hread, htext⟩ := ih
    obtain ⟨p, hpiece, hchar⟩ := exists_piece c
    refine ⟨p :: ps, ?_, ?_⟩
    · rw [List.flatMap_cons, List.append_assoc, hpiece, hread, Option.map_some]
    · rw [hchar, htext, Option.map_some]

theorem lexeme?_quoted (s : String) (rest : List Char) :
    lexeme? (quoted (some s) ++ rest) = some (.string (some s), rest) := by
  obtain ⟨ps, hread, htext⟩ := exists_pieces s.toList rest
  simp [quoted, lexeme?, hread, htext]

/-! ### Numbers -/

/-- What may stand behind a value in a written text. -/
def Closed (rest : List Char) : Prop := ∀ c ∈ rest.head?, c = ',' ∨ c = '\n'

theorem closed_nil : Closed [] := by simp [Closed]

theorem closed_comma (rest : List Char) : Closed (',' :: rest) := by simp [Closed]

theorem closed_newline (level : Nat) (rest : List Char) : Closed (newline level ++ rest) := by
  simp [Closed, newline]

theorem Closed.ne {rest : List Char} (h : Closed rest) {c : Char} (hc : c ∈ rest.head?) :
    c.isDigit = false ∧ c ≠ '.' ∧ c ≠ 'e' ∧ c ≠ 'E' := by
  rcases h c hc with rfl | rfl <;> decide

theorem digits_append {ds rest : List Char} (hds : ∀ c ∈ ds, c.isDigit = true)
    (hrest : ∀ c ∈ rest.head?, c.isDigit = false) : digits (ds ++ rest) = (ds, rest) := by
  rw [digits, List.span_eq_takeWhile_dropWhile, Script.takeWhile_append hds hrest,
    List.dropWhile_append_of_pos hds]
  cases rest with
  | nil => rfl
  | cons c cs => rw [List.dropWhile_cons_of_neg (by simp [hrest c rfl])]

namespace Literal

structure Regular (l : Literal) : Prop where
  whole_ne_nil : l.whole ≠ []
  isDigit_whole : ∀ c ∈ l.whole, c.isDigit = true
  isDigit_fraction : ∀ c ∈ l.fraction, c.isDigit = true
  /-- Zero stands in front only when it stands alone. -/
  leading : l.whole.head? = some '0' → l.whole.length = 1

theorem isDigit_toDigits {n : Nat} {c : Char} (hc : c ∈ Nat.toDigits 10 n) : c.isDigit = true :=
  Nat.isDigit_of_mem_toDigits (by decide) (by decide) hc

theorem signed?_toDigits (negative : Bool) (n : Nat) {rest : List Char} (hrest : Closed rest) :
    signed? negative (Nat.toDigits 10 n ++ rest) =
      some (some (if negative then -(n : Int) else n), rest) := by
  have hsplit : digits (Nat.toDigits 10 n ++ rest) = (Nat.toDigits 10 n, rest) :=
    digits_append (fun c hc => isDigit_toDigits hc) fun c hc => (hrest.ne hc).1
  simp [signed?, hsplit, Nat.toDigits_ne_nil]

def tailChars : Option Int → List Char
  | none => []
  | some e => exponentChars e

theorem exponent?_tailChars (e : Option Int) {rest : List Char} (hrest : Closed rest) :
    exponent? (tailChars e ++ rest) = some (e, rest) := by
  cases e with
  | none =>
    cases rest with
    | nil => rfl
    | cons c cs =>
      have hc := hrest.ne (c := c) rfl
      simp [tailChars, exponent?, hc.2.2.1, hc.2.2.2]
  | some e =>
    by_cases he : e < 0
    · have habs : -(e.natAbs : Int) = e := by omega
      have hread := signed?_toDigits true e.natAbs hrest
      rw [if_pos rfl, habs] at hread
      simpa [tailChars, exponentChars, if_pos he, exponent?] using hread
    · have habs : (e.natAbs : Int) = e := by omega
      have hread := signed?_toDigits false e.natAbs hrest
      rw [if_neg (by decide), habs] at hread
      simpa [tailChars, exponentChars, if_neg he, exponent?] using hread

theorem head?_tailChars (e : Option Int) {rest : List Char} (hrest : Closed rest) {c : Char}
    (hc : c ∈ (tailChars e ++ rest).head?) : c.isDigit = false ∧ c ≠ '.' := by
  cases e with
  | none => exact ⟨(hrest.ne hc).1, (hrest.ne hc).2.1⟩
  | some e =>
    obtain rfl : 'e' = c := by simpa [tailChars, exponentChars] using hc
    decide

def pointChars (fraction : List Char) : List Char :=
  if fraction.isEmpty then [] else '.' :: fraction

theorem fraction?_pointChars {ds rest : List Char} (hds : ∀ c ∈ ds, c.isDigit = true)
    (hrest : ∀ c ∈ rest.head?, c.isDigit = false ∧ c ≠ '.') :
    fraction? (pointChars ds ++ rest) = some (ds, rest) := by
  cases ds with
  | nil =>
    show fraction? rest = some ([], rest)
    unfold fraction?
    split
    · exact absurd rfl (hrest '.' rfl).2
    · rfl
  | cons d ds =>
    have hsplit := digits_append hds fun c hc => (hrest c hc).1
    simp only [pointChars, List.isEmpty_cons, Bool.false_eq_true, if_false, List.cons_append,
      fraction?] at hsplit ⊢
    simp [hsplit]

theorem Regular.unsigned? {l : Literal} (h : l.Regular) {rest : List Char} (hrest : Closed rest) :
    unsigned? l.negative (l.whole ++ (pointChars l.fraction ++ (tailChars l.exponent ++ rest))) =
      some (l, rest) := by
  have hbehind : ∀ c ∈ (pointChars l.fraction ++ (tailChars l.exponent ++ rest)).head?,
      c.isDigit = false := by
    intro c hc
    rw [pointChars] at hc
    split at hc
    · exact (head?_tailChars _ hrest hc).1
    · obtain rfl : '.' = c := by simpa using hc
      decide
  have hsplit := digits_append h.isDigit_whole hbehind
  have hwhole : (l.whole.isEmpty || (l.whole.head? == some '0' && l.whole.length != 1)) =
      false := by
    by_cases hzero : l.whole.head? = some '0'
    · simp [h.whole_ne_nil, h.leading hzero]
    · simp [h.whole_ne_nil, hzero]
  rw [Json.unsigned?, hsplit]
  simp only [hwhole, Bool.false_eq_true, if_false,
    fraction?_pointChars h.isDigit_fraction fun c hc => head?_tailChars l.exponent hrest hc,
    exponent?_tailChars l.exponent hrest, Option.bind_eq_bind, Option.bind_some, Option.pure_def]

theorem Regular.literal?_chars {l : Literal} (h : l.Regular) {rest : List Char}
    (hrest : Closed rest) : literal? (l.chars ++ rest) = some (l, rest) := by
  have hread := h.unsigned? hrest
  have hchars : l.chars ++ rest = (if l.negative then ['-'] else []) ++
      (l.whole ++ (pointChars l.fraction ++ (tailChars l.exponent ++ rest))) := by
    cases hexponent : l.exponent <;> simp [chars, pointChars, tailChars, hexponent]
  rw [hchars]
  cases hsign : l.negative with
  | true =>
    rw [hsign] at hread
    exact hread
  | false =>
    rw [hsign] at hread
    simp only [Bool.false_eq_true, if_false, List.nil_append]
    -- a digit stands in front, so no sign is taken off
    unfold literal?
    split
    · next heq =>
      obtain ⟨d, ds, hd⟩ := List.exists_cons_of_ne_nil h.whole_ne_nil
      have hdigit := h.isDigit_whole d (by simp [hd])
      simp only [hd, List.cons_append, List.cons.injEq] at heq
      rw [heq.1] at hdigit
      exact absurd hdigit (by decide)
    · exact hread

/-! Every literal that is written is regular. -/

theorem head?_toDigits_ne_zero {n : Nat} (hn : n ≠ 0) : (Nat.toDigits 10 n).head? ≠ some '0' := by
  induction n using Nat.strongRecOn with
  | ind n ih =>
    rw [Nat.toDigits_eq_if (by decide)]
    split
    · simpa using hn
    · rw [List.head?_append_of_ne_nil _ Nat.toDigits_ne_nil]
      exact ih (n / 10) (by omega) (by omega)

theorem isDigit_zeros {k : Nat} {c : Char} (hc : c ∈ List.replicate k '0') : c.isDigit = true := by
  rw [(List.mem_replicate.1 hc).2]
  decide

theorem regular_ofNat (n : Nat) : (ofNat n).Regular where
  whole_ne_nil := Nat.toDigits_ne_nil
  isDigit_whole _ hc := isDigit_toDigits hc
  isDigit_fraction := by simp [ofNat]
  leading h := by
    by_cases hn : n = 0
    · subst hn
      decide
    · exact absurd h (head?_toDigits_ne_zero hn)

theorem regular_ofDecimal (negative : Bool) (d : Decimal) : (ofDecimal negative d).Regular := by
  by_cases hdigits : d.digits = 0
  · rw [ofDecimal, if_pos hdigits]
    exact ⟨by simp, by simp, by simp, by simp⟩
  have hlead := head?_toDigits_ne_zero hdigits
  have hlen : 0 < (Nat.toDigits 10 d.digits).length := Nat.length_toDigits_pos
  -- a part in front of nonzero digits starts as they do
  have htake : ∀ k, 0 < k → ((Nat.toDigits 10 d.digits).take k).head? ≠ some '0' := by
    intro k hk
    rwa [List.head?_take, if_neg (by omega)]
  simp only [ofDecimal, if_neg hdigits]
  split
  · refine ⟨by simp [Nat.toDigits_ne_nil], fun c hc => isDigit_toDigits (List.mem_of_mem_take hc),
      fun c hc => isDigit_toDigits (List.mem_of_mem_drop hc),
        fun h => absurd h (htake 1 (by decide))⟩
  split
  · exact ⟨by simp, by simp,
      fun c hc => (List.mem_append.1 hc).elim isDigit_zeros isDigit_toDigits, by simp⟩
  split
  · refine ⟨by simp [Nat.toDigits_ne_nil]; omega,
      fun c hc => isDigit_toDigits (List.mem_of_mem_take hc),
      fun c hc => isDigit_toDigits (List.mem_of_mem_drop hc),
      fun h => absurd h (htake _ (by omega))⟩
  · refine ⟨by simp [Nat.toDigits_ne_nil],
      fun c hc => (List.mem_append.1 hc).elim isDigit_toDigits isDigit_zeros, by simp, fun h => ?_⟩
    rw [List.head?_append_of_ne_nil _ Nat.toDigits_ne_nil] at h
    exact absurd h hlead

theorem regular_ofNumber (x : Number) : (ofNumber x).Regular := regular_ofDecimal _ _

end Literal

/-! ### Lexemes -/

/-- The characters have the lexemes, whatever number of steps is allowed for them. -/
def Spells (cs : List Char) (ls : List Lexeme) : Prop :=
  ∀ bound, cs.length ≤ bound → lexemes? bound cs = some ls

theorem spells_nil : Spells [] [] := by
  intro bound _
  rw [lexemes?]

theorem Spells.space {c : Char} {cs : List Char} {ls : List Lexeme} (hc : isSpace c = true)
    (h : Spells cs ls) : Spells (c :: cs) ls := by
  intro bound hbound
  obtain ⟨k, rfl⟩ :=
    Nat.exists_eq_add_of_lt (Nat.lt_of_lt_of_le (Nat.zero_lt_succ cs.length) hbound)
  rw [Nat.zero_add, lexemes?, if_pos hc]
  exact h k (by simpa using hbound)

theorem Spells.lexeme {c : Char} {cs rest : List Char} {l : Lexeme} {ls : List Lexeme}
    (hc : isSpace c = false) (hl : lexeme? (c :: cs) = some (l, rest))
    (hrest : rest.length ≤ cs.length) (h : Spells rest ls) : Spells (c :: cs) (l :: ls) := by
  intro bound hbound
  obtain ⟨k, rfl⟩ :=
    Nat.exists_eq_add_of_lt (Nat.lt_of_lt_of_le (Nat.zero_lt_succ cs.length) hbound)
  have hmore := h k (by simp only [List.length_cons] at hbound; omega)
  rw [Nat.zero_add, lexemes?, if_neg (by simp [hc]), hl]
  simp [hmore]

theorem Spells.mark {c : Char} {m : Mark} (hm : Mark.ofChar? c = some m) {rest : List Char}
    {ls : List Lexeme} (h : Spells rest ls) : Spells (c :: rest) (.mark m :: ls) := by
  revert hm
  unfold Mark.ofChar?
  split <;> rintro ⟨⟩ <;> exact .lexeme rfl rfl (Nat.le_refl _) h

theorem Spells.newline (level : Nat) {rest : List Char} {ls : List Lexeme} (h : Spells rest ls) :
    Spells (newline level ++ rest) ls := by
  rw [Json.newline, List.cons_append]
  apply Spells.space rfl
  induction 2 * level with
  | zero => exact h
  | succ k ih =>
    rw [List.replicate_succ, List.cons_append]
    exact .space rfl ih

theorem Spells.quoted (s : String) {rest : List Char} {ls : List Lexeme} (h : Spells rest ls) :
    Spells (quoted (some s) ++ rest) (.string (some s) :: ls) :=
  .lexeme rfl (lexeme?_quoted s rest) (by simp; omega) h

theorem Literal.Regular.exists_cons {l : Literal} (h : l.Regular) :
    ∃ c cs, l.chars = c :: cs ∧ (c = '-' ∨ c.isDigit = true) := by
  obtain ⟨d, ds, hd⟩ := List.exists_cons_of_ne_nil h.whole_ne_nil
  have hdigit := h.isDigit_whole d (by simp [hd])
  cases hsign : l.negative with
  | true => exact ⟨'-', _, by simp [Literal.chars, hsign]; rfl, .inl rfl⟩
  | false => exact ⟨d, _, by simp [Literal.chars, hsign, hd]; rfl, .inr hdigit⟩

theorem lexeme?_literal {c : Char} (hc : c = '-' ∨ c.isDigit = true) (cs : List Char) :
    lexeme? (c :: cs) = (literal? (c :: cs)).map fun p => (.scalar (number p.1), p.2) := by
  have hne : ∀ d, d ≠ '-' → d.isDigit = false → c ≠ d := by
    rintro d hminus hdigit rfl
    rcases hc with rfl | hc
    · exact hminus rfl
    · simp [hdigit] at hc
  have hmark : Mark.ofChar? c = none := by
    unfold Mark.ofChar?
    split <;> first | rfl | exact absurd rfl (hne _ (by decide) (by decide))
  rw [lexeme?, hmark]
  all_goals
    intro _ h
    exact hne _ (by decide) (by decide) (List.cons.inj h).1

theorem Spells.literal {l : Literal} (hl : l.Regular) {rest : List Char} (hrest : Closed rest)
    {ls : List Lexeme} (h : Spells rest ls) :
    Spells (l.chars ++ rest) (.scalar (number l) :: ls) := by
  have hread := hl.literal?_chars hrest
  obtain ⟨c, cs, hchars, hc⟩ := hl.exists_cons
  rw [hchars, List.cons_append] at hread ⊢
  have hspace : isSpace c = false := by
    rcases hc with rfl | hc
    · decide
    · simp only [isSpace, Bool.or_eq_false_iff, beq_eq_false_iff_ne]
      refine ⟨⟨⟨?_, ?_⟩, ?_⟩, ?_⟩ <;> rintro rfl <;> exact absurd hc (by decide)
  exact .lexeme hspace (by rw [lexeme?_literal hc, hread]; rfl) (by simp) h

/-! ### Values -/

mutual

def lexemes : Json → List Lexeme
  | null => [.scalar null]
  | bool b => [.scalar (bool b)]
  | number l => [.scalar (number l)]
  | string s => [.string s]
  | array [] => [.mark .openArray, .mark .closeArray]
  | array (item :: items) => .mark .openArray :: (lexemes item ++ itemLexemes items)
  | object [] => [.mark .openObject, .mark .closeObject]
  | object ((name, value) :: members) =>
    .mark .openObject :: .string name :: .mark .colon :: (lexemes value ++ memberLexemes members)

def itemLexemes : List Json → List Lexeme
  | [] => [.mark .closeArray]
  | item :: items => .mark .comma :: (lexemes item ++ itemLexemes items)

def memberLexemes : List (Option String × Json) → List Lexeme
  | [] => [.mark .closeObject]
  | (name, value) :: members =>
    .mark .comma :: .string name :: .mark .colon :: (lexemes value ++ memberLexemes members)

end

/-- A value with a text of its own: its literals are allowed, and its strings denote texts. -/
inductive Legible : Json → Prop
  | null : Legible null
  | bool (b : Bool) : Legible (bool b)
  | number {l : Literal} (regular : l.Regular) : Legible (number l)
  | string (s : String) : Legible (string (some s))
  | array {items : List Json} (legible : ∀ item ∈ items, Legible item) : Legible (array items)
  | object {members : List (Option String × Json)} (named : ∀ m ∈ members, m.1.isSome = true)
      (legible : ∀ m ∈ members, Legible m.2) : Legible (object members)

theorem closed_itemChars (level : Nat) (items : List Json) {rest : List Char} (h : Closed rest) :
    Closed (itemChars level items ++ rest) := by
  cases items with
  | nil => rwa [itemChars, List.nil_append]
  | cons item items =>
    simp only [itemChars, List.cons_append]
    exact closed_comma _

theorem closed_memberChars (level : Nat) (members : List (Option String × Json)) {rest : List Char}
    (h : Closed rest) : Closed (memberChars level members ++ rest) := by
  cases members with
  | nil => rwa [memberChars, List.nil_append]
  | cons member members =>
    simp only [memberChars, List.cons_append]
    exact closed_comma _

theorem Spells.name {name : Option String} (hname : name.isSome = true) {rest : List Char}
    {ls : List Lexeme} (h : Spells rest ls) :
    Spells (Json.quoted name ++ ':' :: ' ' :: rest) (.string name :: .mark .colon :: ls) := by
  obtain ⟨s, rfl⟩ := Option.isSome_iff_exists.1 hname
  exact .quoted s (.mark rfl (.space rfl h))

mutual

/-- The text of a value has the lexemes of the value. -/
theorem Legible.spells_chars : ∀ (j : Json) (level : Nat) {rest : List Char} {ls : List Lexeme},
    Legible j → Closed rest → Spells rest ls → Spells (chars level j ++ rest) (lexemes j ++ ls)
  | .null, _, _, _, _, _, h => by
    rw [chars, lexemes]
    exact .lexeme rfl rfl (by simp; omega) h
  | .bool true, _, _, _, _, _, h => by
    rw [chars, lexemes]
    exact .lexeme rfl rfl (by simp; omega) h
  | .bool false, _, _, _, _, _, h => by
    rw [chars, lexemes]
    exact .lexeme rfl rfl (by simp; omega) h
  | .number l, _, _, _, hj, hrest, h => by
    cases hj with
    | number regular =>
      rw [chars, lexemes]
      exact .literal regular hrest h
  | .string s, _, _, _, hj, _, h => by
    cases hj
    rw [chars, lexemes]
    exact .quoted _ h
  | .array [], _, _, _, _, _, h => by
    rw [chars, lexemes]
    exact .mark rfl (.mark rfl h)
  | .array (item :: items), level, rest, ls, hj, _, h => by
    cases hj with
    | array legible =>
      have hitems :=
        spells_itemChars items (level + 1) level (fun i hi => legible i (by simp [hi])) h
      have hitem := Legible.spells_chars item (level + 1) (legible item (by simp))
        (closed_itemChars _ _ (closed_newline _ _)) hitems
      rw [chars, lexemes]
      simpa using Spells.mark (c := '[') rfl (.newline (level + 1) hitem)
  | .object [], _, _, _, _, _, h => by
    rw [chars, lexemes]
    exact .mark rfl (.mark rfl h)
  | .object ((name, value) :: members), level, rest, ls, hj, _, h => by
    cases hj with
    | object named legible =>
      have hmembers := spells_memberChars members (level + 1) level
        (fun m hm => named m (by simp [hm])) (fun m hm => legible m (by simp [hm])) h
      have hvalue := Legible.spells_chars value (level + 1) (legible (name, value) (by simp))
        (closed_memberChars _ _ (closed_newline _ _)) hmembers
      rw [chars, lexemes]
      simpa using Spells.mark (c := '\x7b') rfl
        (.newline (level + 1) (.name (named (name, value) (by simp)) hvalue))

theorem spells_itemChars : ∀ (items : List Json) (level outer : Nat) {rest : List Char}
    {ls : List Lexeme}, (∀ item ∈ items, Legible item) → Spells rest ls →
    Spells (itemChars level items ++ (newline outer ++ ']' :: rest)) (itemLexemes items ++ ls)
  | [], _, outer, _, _, _, h => by
    rw [itemChars, itemLexemes]
    exact .newline outer (.mark rfl h)
  | item :: items, level, outer, rest, ls, hitems, h => by
    have hmore := spells_itemChars items level outer (fun i hi => hitems i (by simp [hi])) h
    have hitem := Legible.spells_chars item level (hitems item (by simp))
      (closed_itemChars _ _ (closed_newline _ _)) hmore
    rw [itemChars, itemLexemes]
    simpa using Spells.mark (c := ',') rfl (.newline level hitem)

theorem spells_memberChars : ∀ (members : List (Option String × Json)) (level outer : Nat)
    {rest : List Char} {ls : List Lexeme}, (∀ m ∈ members, m.1.isSome = true) →
    (∀ m ∈ members, Legible m.2) → Spells rest ls →
    Spells (memberChars level members ++ (newline outer ++ '\x7d' :: rest))
      (memberLexemes members ++ ls)
  | [], _, outer, _, _, _, _, h => by
    rw [memberChars, memberLexemes]
    exact .newline outer (.mark rfl h)
  | (name, value) :: members, level, outer, rest, ls, named, legible, h => by
    have hmore := spells_memberChars members level outer (fun m hm => named m (by simp [hm]))
      (fun m hm => legible m (by simp [hm])) h
    have hvalue := Legible.spells_chars value level (legible (name, value) (by simp))
      (closed_memberChars _ _ (closed_newline _ _)) hmore
    rw [memberChars, memberLexemes]
    simpa using Spells.mark (c := ',') rfl
      (.newline level (.name (named (name, value) (by simp)) hvalue))

end

/-! The lexemes of a value are parsed as the value. -/

def Parses {α : Type} (read : (ls : List Lexeme) → Option (Parsed α ls))
    (ls : List Lexeme) (value : α) (rest : List Lexeme) : Prop :=
  ∃ p, read ls = some p ∧ p.value = value ∧ p.rest = rest

theorem Parses.array {ls rest : List Lexeme} {items : List Json} (h : Parses items? ls items rest)
    (hne : ∀ more, ls ≠ .mark .closeArray :: more) :
    Parses value? (.mark .openArray :: ls) (array items) rest := by
  obtain ⟨p, hp, rfl, rfl⟩ := h
  rw [Parses, value?, hp]
  · exact ⟨_, rfl, rfl, rfl⟩
  · exact hne

theorem Parses.object {ls rest : List Lexeme} {members : List (Option String × Json)}
    (h : Parses members? ls members rest) (hne : ∀ more, ls ≠ .mark .closeObject :: more) :
    Parses value? (.mark .openObject :: ls) (object members) rest := by
  obtain ⟨p, hp, rfl, rfl⟩ := h
  rw [Parses, value?, hp]
  · exact ⟨_, rfl, rfl, rfl⟩
  · exact hne

theorem Parses.lastItem {ls rest : List Lexeme} {item : Json}
    (h : Parses value? ls item (.mark .closeArray :: rest)) : Parses items? ls [item] rest := by
  obtain ⟨⟨value, left, shorter⟩, hp, rfl, rfl⟩ := h
  rw [Parses, items?, hp]
  exact ⟨_, rfl, rfl, rfl⟩

theorem Parses.nextItem {ls more rest : List Lexeme} {item : Json} {items : List Json}
    (h : Parses value? ls item (.mark .comma :: more)) (hmore : Parses items? more items rest) :
    Parses items? ls (item :: items) rest := by
  obtain ⟨⟨value, left, shorter⟩, hp, rfl, rfl⟩ := h
  obtain ⟨q, hq, rfl, rfl⟩ := hmore
  rw [Parses, items?, hp]
  simp only [Option.bind_eq_bind, Option.bind_some, hq]
  exact ⟨_, rfl, rfl, rfl⟩

theorem Parses.lastMember {name : Option String} {ls rest : List Lexeme} {value : Json}
    (h : Parses value? ls value (.mark .closeObject :: rest)) :
    Parses members? (.string name :: .mark .colon :: ls) [(name, value)] rest := by
  obtain ⟨⟨value, left, shorter⟩, hp, rfl, rfl⟩ := h
  rw [Parses, members?, hp]
  exact ⟨_, rfl, rfl, rfl⟩

theorem Parses.nextMember {name : Option String} {ls more rest : List Lexeme} {value : Json}
    {members : List (Option String × Json)} (h : Parses value? ls value (.mark .comma :: more))
    (hmore : Parses members? more members rest) :
    Parses members? (.string name :: .mark .colon :: ls) ((name, value) :: members) rest := by
  obtain ⟨⟨value, left, shorter⟩, hp, rfl, rfl⟩ := h
  obtain ⟨q, hq, rfl, rfl⟩ := hmore
  rw [Parses, members?, hp]
  simp only [Option.bind_eq_bind, Option.bind_some, hq]
  exact ⟨_, rfl, rfl, rfl⟩

theorem lexemes_ne_closeArray (j : Json) (ls more : List Lexeme) :
    lexemes j ++ ls ≠ .mark .closeArray :: more := by
  unfold lexemes
  split <;> simp

mutual

theorem parses_lexemes : ∀ (j : Json) (rest : List Lexeme), Parses value? (lexemes j ++ rest) j rest
  | .null, rest => by
    rw [lexemes, List.singleton_append, Parses, value?]
    exact ⟨_, rfl, rfl, rfl⟩
  | .bool b, rest => by
    rw [lexemes, List.singleton_append, Parses, value?]
    exact ⟨_, rfl, rfl, rfl⟩
  | .number l, rest => by
    rw [lexemes, List.singleton_append, Parses, value?]
    exact ⟨_, rfl, rfl, rfl⟩
  | .string s, rest => by
    rw [lexemes, List.singleton_append, Parses, value?]
    exact ⟨_, rfl, rfl, rfl⟩
  | .array [], rest => by
    rw [lexemes, List.cons_append, List.singleton_append, Parses, value?]
    exact ⟨_, rfl, rfl, rfl⟩
  | .array (item :: items), rest => by
    rw [lexemes, List.cons_append, List.append_assoc]
    exact .array (parses_itemLexemes items (parses_lexemes item _)) (lexemes_ne_closeArray _ _)
  | .object [], rest => by
    rw [lexemes, List.cons_append, List.singleton_append, Parses, value?]
    exact ⟨_, rfl, rfl, rfl⟩
  | .object ((name, value) :: members), rest => by
    rw [lexemes, List.cons_append, List.cons_append, List.cons_append, List.append_assoc]
    exact .object (parses_memberLexemes members (parses_lexemes value _)) (by simp)

theorem parses_itemLexemes : ∀ (items : List Json) {item : Json} {ls rest : List Lexeme},
    Parses value? ls item (itemLexemes items ++ rest) → Parses items? ls (item :: items) rest
  | [], _, _, _, h => by
    rw [itemLexemes] at h
    exact .lastItem h
  | next :: items, _, _, rest, h => by
    rw [itemLexemes, List.cons_append, List.append_assoc] at h
    exact .nextItem h (parses_itemLexemes items (parses_lexemes next _))

theorem parses_memberLexemes : ∀ (members : List (Option String × Json)) {name : Option String}
    {value : Json} {ls rest : List Lexeme}, Parses value? ls value (memberLexemes members ++ rest) →
    Parses members? (.string name :: .mark .colon :: ls) ((name, value) :: members) rest
  | [], _, _, _, _, h => by
    rw [memberLexemes] at h
    exact .lastMember h
  | (next, value) :: members, _, _, _, rest, h => by
    rw [memberLexemes, List.cons_append, List.cons_append, List.cons_append, List.append_assoc] at h
    exact .nextMember h (parses_memberLexemes members (parses_lexemes value _))

end

/-- A value that has a text is read back from it. -/
theorem Legible.read?_render {j : Json} (h : Legible j) : read? j.render = some j := by
  have hlexemes := h.spells_chars j 0 closed_nil spells_nil (chars 0 j).length (by simp)
  obtain ⟨p, hp, hvalue, hrest⟩ := parses_lexemes j []
  simp only [List.append_nil] at hlexemes
  rw [read?, render, String.toList_ofList, String.length_ofList, hlexemes]
  simp only [Option.bind_eq_bind, Option.bind_some]
  revert p
  rw [List.append_nil]
  intro p hp hvalue hrest
  rw [hp, Option.bind_some, hrest, hvalue]
  rfl

end FlowGraph.Json
