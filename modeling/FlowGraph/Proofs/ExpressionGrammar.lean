import FlowGraph.Proofs.ExpressionLeaves

/-! A grammar of the expressions in generated source. It leaves open how operators bind: between two
operands any operator may come first. An expression that is written with its operands in parentheses
has one reading still. -/
namespace FlowGraph
namespace Expression

open Operand Text

inductive Level where
  | operand
  | whole

/-- The readings of a text. A negation takes one operand; operators stand between any two
expressions, so that they bind in every way. Blanks are free around operands. -/
inductive Reads : Level → List Char → Expression → Prop
  | leaf {cs : List Char} {e : Expression} (h : Leaf cs e) : Reads .operand cs e
  | parens {cs : List Char} {e : Expression} (h : Reads .whole cs e) :
      Reads .operand ('(' :: (cs ++ [')'])) e
  | negation {cs : List Char} {e : Expression} (h : Reads .operand cs e) :
      Reads .operand ('!' :: cs) (negation e)
  | vector {xs ys zs : List Char} {x y z : Expression} (hx : Reads .whole xs x)
      (hy : Reads .whole ys y)
      (hz : Reads .whole zs z) :
      Reads .operand (['v', 'e', 'c', '3'] ++ '(' :: ((xs ++ ',' :: (ys ++ ',' :: zs)) ++ [')']))
        (vector x y z)
  | padLeft {c : Char} {cs : List Char} {e : Expression} (hc : isBlank c = true)
      (h : Reads .operand cs e) :
      Reads .operand (c :: cs) e
  | padRight {c : Char} {cs : List Char} {e : Expression} (hc : isBlank c = true)
      (h : Reads .operand cs e) :
      Reads .operand (cs ++ [c]) e
  | operand {cs : List Char} {e : Expression} (h : Reads .operand cs e) : Reads .whole cs e
  | binary {xs ys : List Char} {x y : Expression} (op : Operator) (hx : Reads .whole xs x)
      (hy : Reads .whole ys y) :
      Reads .whole (xs ++ (op.chars ++ ys)) (binary op x y)

/-! ### Places in a reading -/

def EndsOperand (cs : List Char) : Prop :=
  ∃ front c pad, cs = front ++ c :: pad ∧ isBlank c = false ∧ isSign c = false ∧ ∀ b ∈ pad,
    isBlank b = true

namespace EndsOperand

variable {cs : List Char}

theorem append (h : EndsOperand cs) (front : List Char) : EndsOperand (front ++ cs) := by
  obtain ⟨front', c, pad, rfl, hc⟩ := h
  exact ⟨front ++ front', c, pad, by rw [List.append_assoc], hc⟩

theorem concat (h : EndsOperand cs) {b : Char} (hb : isBlank b = true) :
    EndsOperand (cs ++ [b]) := by
  obtain ⟨front, c, pad, rfl, hblank, hsign, hpad⟩ := h
  refine ⟨front, c, pad ++ [b], by simp, hblank, hsign, fun d hd => ?_⟩
  rcases List.mem_append.1 hd with hd | hd
  · exact hpad d hd
  · exact List.mem_singleton.1 hd ▸ hb

/-- Behind a sign there is another end. -/
theorem behind {front : List Char} {d : Char} (h : EndsOperand (front ++ d :: cs))
    (hd : isSign d = true) : EndsOperand cs := by
  obtain ⟨front', c, pad, hsplit, hblank, hsign, hpad⟩ := h
  rcases append_eq_mark hsplit.symm with ⟨m, rfl, rfl⟩ | ⟨m, rfl, hm⟩
  · exact ⟨m, c, pad, rfl, hblank, hsign, hpad⟩
  · cases m with
    | nil =>
      rw [(List.cons.inj hm).1, hd] at hsign
      cases hsign
    | cons b m =>
      have hmem : d ∈ pad := (List.cons.inj hm).2 ▸ List.mem_append_right _ List.mem_cons_self
      rw [isSign_of_isBlank (hpad d hmem)] at hd
      cases hd

theorem of_blank {b : Char} (h : EndsOperand (b :: cs)) (hb : isBlank b = true) :
    EndsOperand cs := by
  obtain ⟨front, c, pad, hsplit, hblank, hrest⟩ := h
  cases front with
  | nil =>
    rw [← (List.cons.inj hsplit).1, hb] at hblank
    cases hblank
  | cons d front => exact ⟨front, c, pad, (List.cons.inj hsplit).2, hblank, hrest⟩

theorem of_signs {signs : List Char} (hsigns : ∀ d ∈ signs, isSign d = true)
    (h : EndsOperand (signs ++ cs)) : EndsOperand cs := by
  induction signs with
  | nil => exact h
  | cons d signs ih =>
    have hbehind : EndsOperand ([] ++ d :: (signs ++ cs)) := h
    exact ih (fun c hc => hsigns c (List.mem_cons_of_mem _ hc))
      (hbehind.behind (hsigns d List.mem_cons_self))

theorem behind_chars {op : Operator} {front : List Char}
    (h : EndsOperand (front ++ (op.chars ++ cs))) : EndsOperand cs := by
  have hsigns : ∀ d ∈ op.chars, isSign d = true := fun _ => Operator.isSign_of_mem
  obtain ⟨c, rest, hchars⟩ := op.exists_cons
  rw [hchars] at h hsigns
  exact of_signs (fun d hd => hsigns d (List.mem_cons_of_mem _ hd))
    (h.behind (hsigns c List.mem_cons_self))

theorem ne_nil (h : EndsOperand cs) : cs ≠ [] := by
  obtain ⟨front, c, pad, rfl, -⟩ := h
  simp

end EndsOperand

theorem closed_chars (op : Operator) : Closed op.chars :=
  .of_not_mem_marks fun _ hc => not_mem_marks_of_isSign (Operator.isSign_of_mem hc)

theorem closed_singleton {c : Char} (hc : c ∉ marks) : Closed [c] :=
  .of_not_mem_marks fun _ hd => List.mem_singleton.1 hd ▸ hc

theorem closed_comma {xs ys : List Char} (hx : Closed xs) (hy : Closed ys) :
    Closed (xs ++ ',' :: ys) :=
  hx.append ((closed_singleton (by decide)).append hy)

/-- What whole expressions have in common: brackets and quotes are closed, an operand ends the text,
and no comma stands outside. -/
structure Phrase (cs : List Char) : Prop where
  closed : Closed cs
  ends : EndsOperand cs
  comma : ∀ {xs ys}, cs = xs ++ ',' :: ys → scan (.plain, 0) xs ≠ (.plain, 0)

/-- What operands have in common besides: outside brackets and quotes no sign stands behind the end
of an operand. -/
structure Solid (cs : List Char) : Prop extends Phrase cs where
  sign : ∀ {xs c ys}, cs = xs ++ c :: ys → isSign c = true → scan (.plain, 0) xs = (.plain, 0) →
    ¬EndsOperand xs

theorem endsOperand_concat (front : List Char) {c : Char} (hblank : isBlank c = false)
    (hsign : isSign c = false) : EndsOperand (front ++ [c]) :=
  ⟨front, c, [], rfl, hblank, hsign, fun _ hb => absurd hb List.not_mem_nil⟩

section Texts

variable {cs : List Char}

theorem Atom.solid (h : Atom cs) : Solid cs where
  closed := h.closed
  ends := by
    obtain ⟨front, c, rfl, hblank, hsign⟩ := h.last
    exact endsOperand_concat front hblank hsign
  comma hsplit hscan := by
    obtain rfl := h.inside _ _ _ hsplit hscan (.inl rfl)
    obtain ⟨c, rest, hcons, -, -, -, hcomma⟩ := h.first
    exact hcomma (List.cons.inj (hcons.symm.trans hsplit)).1
  sign hsplit hsign hscan hends := hends.ne_nil (h.inside _ _ _ hsplit hscan (.inr hsign))

/-- A text in brackets, behind a name or nothing. -/
theorem solid_bracketed {front : List Char} (hcs : Closed cs)
    (hfront : ∀ c ∈ front, isWordPart c = true) : Solid (front ++ '(' :: (cs ++ [')'])) := by
  have hplain := fun c hc => isWordPart_plain (hfront c hc)
  have hclosed : Closed front := .of_not_mem_marks fun c hc => (hplain c hc).2.2.1
  refine ⟨⟨hclosed.append (hcs.bracketed (.inl rfl) (.inl rfl)), ?_, fun hsplit hscan => ?_⟩,
    fun hsplit hsign hscan _ => ?_⟩
  · rw [← List.cons_append, ← List.append_assoc]
    exact endsOperand_concat _ (by decide) (by decide)
  · rcases hcs.mem_or_eq (.inl rfl) hclosed hsplit hscan with hmem | heq
    · exact (hplain _ hmem).2.2.2 rfl
    · exact absurd heq (by decide)
  · rcases hcs.mem_or_eq (.inl rfl) hclosed hsplit hscan with hmem | rfl
    · rw [(hplain _ hmem).1] at hsign
      cases hsign
    · exact absurd hsign (by decide)

theorem Phrase.parens (h : Phrase cs) : Solid ('(' :: (cs ++ [')'])) :=
  solid_bracketed h.closed fun _ hc => absurd hc List.not_mem_nil

theorem Phrase.vec {xs ys zs : List Char} (hx : Phrase xs) (hy : Phrase ys) (hz : Phrase zs) :
    Solid (['v', 'e', 'c', '3'] ++ '(' :: ((xs ++ ',' :: (ys ++ ',' :: zs)) ++ [')'])) := by
  have hall : ['v', 'e', 'c', '3'].all isWordPart = true := by decide +kernel
  exact solid_bracketed (closed_comma hx.closed (closed_comma hy.closed hz.closed))
    (List.all_eq_true.1 hall)

/-- A character in front of an operand that is no mark and no comma, and no end of an operand. -/
theorem Solid.cons (h : Solid cs) {c : Char} (hmark : c ∉ marks) (hcomma : c ≠ ',')
    (hends : ∀ {xs}, EndsOperand (c :: xs) → EndsOperand xs) : Solid (c :: cs) where
  closed := (closed_singleton hmark).append h.closed
  ends := h.ends.append [c]
  comma hsplit hscan := by
    rcases append_eq_mark (a := [c]) hsplit with ⟨m, hm, -⟩ | ⟨m, rfl, hm⟩
    · exact hcomma (eq_of_singleton_eq hm)
    · exact h.comma hm ((closed_singleton hmark).scan_append m ▸ hscan)
  sign {xs} _ _ hsplit hsign hscan hxs := by
    rcases append_eq_mark (a := [c]) hsplit with ⟨m, hm, -⟩ | ⟨m, rfl, hm⟩
    · cases xs with
      | nil => exact hxs.ne_nil rfl
      | cons d xs => simp at hm
    · exact h.sign hm hsign ((closed_singleton hmark).scan_append m ▸ hscan) (hends hxs)

theorem Solid.signed (h : Solid cs) {c : Char} (hc : isSign c = true) : Solid (c :: cs) :=
  h.cons (not_mem_marks_of_isSign hc) (fun heq => absurd (heq ▸ hc) (by decide))
    fun hxs => EndsOperand.of_signs (fun d hd => List.mem_singleton.1 hd ▸ hc) hxs

theorem Solid.padLeft (h : Solid cs) {c : Char} (hc : isBlank c = true) : Solid (c :: cs) :=
  h.cons (not_mem_marks_of_isBlank hc) (fun heq => absurd (heq ▸ hc) (by decide))
    fun hxs => hxs.of_blank hc

theorem Solid.padRight (h : Solid cs) {c : Char} (hc : isBlank c = true) : Solid (cs ++ [c]) where
  closed := h.closed.append (closed_singleton (not_mem_marks_of_isBlank hc))
  ends := h.ends.concat hc
  comma hsplit hscan := by
    rcases append_eq_mark hsplit with ⟨m, hm, -⟩ | ⟨m, rfl, hm⟩
    · exact h.comma hm hscan
    · rw [eq_of_singleton_eq hm] at hc
      exact absurd hc (by decide)
  sign hsplit hsign hscan hxs := by
    rcases append_eq_mark hsplit with ⟨m, hm, -⟩ | ⟨m, rfl, hm⟩
    · exact h.sign hm hsign hscan hxs
    · rw [← eq_of_singleton_eq hm, isSign_of_isBlank hc] at hsign
      cases hsign

/-- Letters and points behind an operand belong to it. -/
theorem Solid.append_word (h : Solid cs) {w : List Char} (hw : ∀ c ∈ w, isWordPart c = true) :
    Solid (cs ++ w) := by
  have hplain := fun c hc => isWordPart_plain (hw c hc)
  have hclosed : Closed w := .of_not_mem_marks fun c hc => (hplain c hc).2.2.1
  refine ⟨⟨h.closed.append hclosed, ?_, fun hsplit hscan => ?_⟩, fun hsplit hsign hscan hxs => ?_⟩
  · rcases List.eq_nil_or_concat w with rfl | ⟨front, c, rfl⟩
    · simpa using h.ends
    · obtain ⟨hsign, hblank, -⟩ := hplain c (by simp)
      rw [List.concat_eq_append, ← List.append_assoc]
      exact endsOperand_concat _ hblank hsign
  · rcases append_eq_mark hsplit with ⟨m, hm, -⟩ | ⟨m, rfl, hm⟩
    · exact h.comma hm hscan
    · exact (hplain ',' (by simp [hm])).2.2.2 rfl
  · rcases append_eq_mark hsplit with ⟨m, hm, -⟩ | ⟨m, rfl, hm⟩
    · exact h.sign hm hsign hscan hxs
    · rw [(hplain _ (hm ▸ List.mem_append_right _ List.mem_cons_self)).1] at hsign
      cases hsign

theorem Phrase.binary {xs ys : List Char} (op : Operator) (hx : Phrase xs) (hy : Phrase ys) :
    Phrase (xs ++ (op.chars ++ ys)) where
  closed := hx.closed.append ((closed_chars op).append hy.closed)
  ends := (hy.ends.append _).append _
  comma hsplit hscan := by
    rcases append_eq_mark hsplit with ⟨m, hm, -⟩ | ⟨m, rfl, hm⟩
    · exact hx.comma hm hscan
    · rcases append_eq_mark hm with ⟨m', hm', -⟩ | ⟨m', rfl, hm'⟩
      · have hsign : isSign ',' = true :=
          Operator.isSign_of_mem (hm' ▸ List.mem_append_right _ List.mem_cons_self)
        exact absurd hsign (by decide)
      · rw [hx.closed.scan_append, (closed_chars op).scan_append] at hscan
        exact hy.comma hm' hscan

/-- An operand holds no operator behind an expression. -/
theorem Solid.ne_binary (h : Solid cs) {op : Operator} {xs ys : List Char} (hx : Phrase xs) :
    cs ≠ xs ++ (op.chars ++ ys) := by
  intro hsplit
  obtain ⟨c, rest, hchars⟩ := op.exists_cons
  rw [hchars, List.cons_append] at hsplit
  have hsign : isSign c = true := Operator.isSign_of_mem (hchars ▸ List.mem_cons_self)
  exact h.sign hsplit hsign hx.closed.scan_eq hx.ends

/-- The first comma outside brackets and quotes ends an expression. -/
theorem Phrase.comma_unique {xs ys rest rest' : List Char} (hx : Phrase xs) (hy : Phrase ys)
    (heq : xs ++ ',' :: rest = ys ++ ',' :: rest') : xs = ys ∧ rest = rest' := by
  rcases append_eq_mark heq with ⟨m, hm, -⟩ | ⟨m, hm, hrest⟩
  · exact absurd hy.closed.scan_eq (hx.comma hm)
  · cases m with
    | nil => exact ⟨by rw [hm, List.append_nil], (List.cons.inj hrest).2⟩
    | cons c m =>
      rw [← (List.cons.inj hrest).1] at hm
      exact absurd hx.closed.scan_eq (hy.comma hm)

/-- Between two operands only the operator is a sign behind the end of an operand. -/
theorem Solid.sign_unique {op : Operator} {xs ys front rest : List Char} {c : Char} (hx : Solid xs)
    (hy : Solid ys) (hsplit : xs ++ ' ' :: (op.chars ++ ' ' :: ys) = front ++ c :: rest)
    (hsign : isSign c = true) (hscan : scan (.plain, 0) front = (.plain, 0))
    (hends : EndsOperand front) : front = xs ++ [' '] := by
  have hblank : Closed [' '] := closed_singleton (by decide)
  rcases append_eq_mark hsplit with ⟨m, hm, -⟩ | ⟨m, rfl, hm⟩
  · exact absurd hends (hx.sign hm hsign hscan)
  cases m with
  | nil =>
    rw [← (List.cons.inj hm).1] at hsign
    exact absurd hsign (by decide)
  | cons b m =>
    obtain ⟨rfl, htail⟩ := List.cons.inj hm
    have hends : EndsOperand ((xs ++ [' ']) ++ m) := by simpa using hends
    rcases append_eq_mark htail with ⟨m', hm', -⟩ | ⟨m', rfl, hm'⟩
    · cases m with
      | nil => rfl
      | cons d m =>
        -- Inside an operator of two characters only signs are passed.
        have hsigns : ∀ a ∈ d :: m, isSign a = true := fun a ha =>
          Operator.isSign_of_mem (hm'.symm ▸ List.mem_append_left _ ha)
        obtain ⟨front, a, pad, rfl, -, hsign', -⟩ := hends.behind (hsigns d List.mem_cons_self)
        rw [hsigns a (by simp)] at hsign'
        cases hsign'
    · cases m' with
      | nil =>
        rw [← (List.cons.inj hm').1] at hsign
        exact absurd hsign (by decide)
      | cons b m' =>
        obtain ⟨rfl, htail'⟩ := List.cons.inj hm'
        rw [hx.closed.scan_append, ← List.singleton_append, hblank.scan_append,
          (closed_chars op).scan_append, ← List.singleton_append, hblank.scan_append] at hscan
        exact absurd (hends.behind_chars.of_blank (by decide)) (hy.sign htail' hsign hscan)

/-- Two operands around an operator are no operand, and no other operator stands between two
expressions. -/
theorem Solid.binary_unique {op op' : Operator} {xs ys xs' ys' : List Char} (hx : Solid xs)
    (hy : Solid ys) (hx' : Phrase xs')
    (htext : xs ++ ' ' :: (op.chars ++ ' ' :: ys) = xs' ++ (op'.chars ++ ys')) :
    xs' = xs ++ [' '] ∧ op' = op ∧ ys' = ' ' :: ys := by
  obtain ⟨c, rest, hchars⟩ := op'.exists_cons
  have hsign : isSign c = true := Operator.isSign_of_mem (hchars ▸ List.mem_cons_self)
  have hsplit := htext
  rw [hchars, List.cons_append] at hsplit
  obtain rfl := hx.sign_unique hy hsplit hsign hx'.closed.scan_eq hx'.ends
  rw [List.append_assoc, List.singleton_append] at htext
  obtain ⟨rfl, rfl⟩ := Operator.eq_of_chars_append (List.cons.inj (List.append_cancel_left htext)).2
  exact ⟨rfl, rfl, rfl⟩

theorem Solid.not_solid_binary {op : Operator} {xs ys : List Char} (hx : Solid xs) :
    ¬Solid (xs ++ ' ' :: (op.chars ++ ' ' :: ys)) := by
  intro h
  have hsplit : xs ++ ' ' :: (op.chars ++ ' ' :: ys) =
      (xs ++ [' ']) ++ (op.chars ++ ' ' :: ys) := by simp
  exact h.ne_binary (hx.padRight (by decide)).toPhrase hsplit

end Texts

namespace Reads

variable {level : Level} {cs : List Char} {e e' : Expression}

/-- What is read is a phrase, and what is read as an operand is solid. -/
theorem phrase_and_solid (h : Reads level cs e) : Phrase cs ∧ (level = .operand → Solid cs) := by
  have hboth : ∀ {level : Level} {cs : List Char}, Solid cs → Phrase cs ∧
      (level = .operand → Solid cs) :=
    fun h => ⟨h.toPhrase, fun _ => h⟩
  induction h with
  | leaf h => exact hboth h.atom.solid
  | parens _ ih => exact hboth ih.1.parens
  | negation _ ih => exact hboth ((ih.2 rfl).signed (by decide))
  | vector _ _ _ hx hy hz => exact hboth (hx.1.vec hy.1 hz.1)
  | padLeft hc _ ih => exact hboth ((ih.2 rfl).padLeft hc)
  | padRight hc _ ih => exact hboth ((ih.2 rfl).padRight hc)
  | operand _ ih => exact ⟨ih.1, fun hlevel => by cases hlevel⟩
  | binary op _ _ hx hy => exact ⟨hx.1.binary op hy.1, fun hlevel => by cases hlevel⟩

theorem phrase (h : Reads level cs e) : Phrase cs := h.phrase_and_solid.1

theorem solid (h : Reads .operand cs e) : Solid cs := h.phrase_and_solid.2 rfl

/-- What can be read as an operand has no operator outside brackets and quotes. -/
theorem of_whole (h : Reads .operand cs e) (h' : Reads .whole cs e') : Reads .operand cs e' := by
  cases h' with
  | operand h' => exact h'
  | binary op hx _ => exact absurd rfl (h.solid.ne_binary hx.phrase)

/-! ### Blanks -/

theorem ne_nil (h : Reads level cs e) : cs ≠ [] := h.phrase.ends.ne_nil

theorem of_blank_cons {c : Char} (hc : isBlank c = true) (h : Reads level (c :: cs) e) :
    Reads level cs e := by
  generalize htext : c :: cs = text at h
  induction h generalizing cs with
  | leaf h =>
    obtain ⟨d, rest, rfl, hblank, -⟩ := h.atom.first
    rw [← (List.cons.inj htext).1, hc] at hblank
    cases hblank
  | parens =>
    rw [(List.cons.inj htext).1] at hc
    exact absurd hc (by decide)
  | negation =>
    rw [(List.cons.inj htext).1] at hc
    exact absurd hc (by decide)
  | vector =>
    rw [(List.cons.inj htext).1] at hc
    exact absurd hc (by decide)
  | padLeft _ h => exact (List.cons.inj htext).2 ▸ h
  | @padRight b text _ hb h ih =>
    obtain ⟨d, rest, rfl⟩ := List.exists_cons_of_ne_nil h.ne_nil
    obtain ⟨rfl, rfl⟩ := List.cons.inj htext
    exact .padRight hb (ih rfl)
  | operand _ ih => exact .operand (ih htext)
  | binary op hx hy ihx =>
    obtain ⟨d, rest, rfl⟩ := List.exists_cons_of_ne_nil hx.ne_nil
    obtain ⟨rfl, rfl⟩ := List.cons.inj htext
    exact .binary op (ihx rfl) hy

theorem of_concat_blank {c : Char} (hc : isBlank c = true) (h : Reads level (cs ++ [c]) e) :
    Reads level cs e := by
  have hparen : ∀ {cs front : List Char}, cs ++ [c] ≠ front ++ [')'] := fun heq => by
    rw [List.singleton_inj.1 (List.append_inj_right' heq rfl)] at hc
    exact absurd hc (by decide)
  generalize htext : cs ++ [c] = text at h
  induction h generalizing cs with
  | leaf h =>
    obtain ⟨front, d, rfl, hblank, -⟩ := h.atom.last
    rw [← List.singleton_inj.1 (List.append_inj_right' htext rfl), hc] at hblank
    cases hblank
  | parens => exact absurd (htext.trans List.cons_append.symm) hparen
  | negation _ ih =>
    cases cs with
    | nil =>
      rw [(List.cons.inj htext).1] at hc
      exact absurd hc (by decide)
    | cons d cs =>
      obtain ⟨rfl, htail⟩ := List.cons.inj htext
      exact .negation (ih htail)
  | vector => exact absurd (htext.trans (List.append_assoc _ ('(' :: _) _).symm) hparen
  | padLeft hb h ih =>
    cases cs with
    | nil => exact absurd (List.cons.inj htext).2.symm h.ne_nil
    | cons d cs =>
      obtain ⟨rfl, htail⟩ := List.cons.inj htext
      exact .padLeft hb (ih htail)
  | padRight _ h => exact List.append_inj_left' htext rfl ▸ h
  | operand _ ih => exact .operand (ih htext)
  | @binary xs ys x y op hx hy _ ihy =>
    have hlast := List.dropLast_concat_getLast hy.ne_nil
    rw [← hlast, ← List.append_assoc, ← List.append_assoc] at htext
    obtain rfl := List.append_inj_left' htext rfl
    have hc' := List.singleton_inj.1 (List.append_inj_right' htext rfl)
    rw [List.append_assoc]
    exact .binary op hx (ihy (hc' ▸ hlast))

theorem blank_cons {c : Char} (hc : isBlank c = true) (h : Reads .whole cs e) :
    Reads .whole (c :: cs) e := by
  generalize hlevel : Level.whole = level at h
  induction h with
  | operand h => exact .operand (.padLeft hc h)
  | binary op _ hy ihx => exact .binary op (ihx rfl) hy
  | _ => cases hlevel

/-! ### Readings of each form -/

theorem eq_of_leaf (hleaf : Leaf cs e) (h : Reads .operand cs e') : e' = e := by
  obtain ⟨c, rest, hfirst, hblank, hparen, hbang, -⟩ := hleaf.atom.first
  obtain ⟨front, d, hlast, hblank', -⟩ := hleaf.atom.last
  cases h with
  | leaf h => exact h.unique hleaf rfl
  | parens => exact absurd (List.cons.inj hfirst).1.symm hparen
  | negation => exact absurd (List.cons.inj hfirst).1.symm hbang
  | vector => exact absurd hleaf (not_leaf_vec _)
  | padLeft hc =>
    rw [(List.cons.inj hfirst).1, hblank] at hc
    cases hc
  | padRight hc =>
    rw [List.singleton_inj.1 (List.append_inj_right' hlast rfl), hblank'] at hc
    cases hc

theorem of_parens (h : Reads .operand ('(' :: (cs ++ [')'])) e) : Reads .whole cs e := by
  generalize htext : '(' :: (cs ++ [')']) = text at h
  cases h with
  | leaf h =>
    obtain ⟨c, rest, rfl, -, hparen, -⟩ := h.atom.first
    exact absurd (List.cons.inj htext).1.symm hparen
  | parens h => exact List.append_cancel_right (List.cons.inj htext).2 ▸ h
  | negation => exact absurd (List.cons.inj htext).1 (by decide)
  | vector => exact absurd (List.cons.inj htext).1 (by decide)
  | padLeft hc =>
    rw [← (List.cons.inj htext).1] at hc
    exact absurd hc (by decide)
  | padRight hc =>
    rw [← List.cons_append] at htext
    rw [← List.singleton_inj.1 (List.append_inj_right' htext rfl)] at hc
    exact absurd hc (by decide)

theorem of_negation (h : Reads .operand ('!' :: cs) e) :
    ∃ x, e = .negation x ∧ Reads .operand cs x := by
  generalize hlevel : Level.operand = level at h
  generalize htext : '!' :: cs = text at h
  induction h generalizing cs with
  | leaf h =>
    obtain ⟨c, rest, rfl, -, -, hbang, -⟩ := h.atom.first
    exact absurd (List.cons.inj htext).1.symm hbang
  | parens => exact absurd (List.cons.inj htext).1 (by decide)
  | negation h => exact ⟨_, rfl, (List.cons.inj htext).2 ▸ h⟩
  | vector => exact absurd (List.cons.inj htext).1 (by decide)
  | padLeft hc =>
    rw [← (List.cons.inj htext).1] at hc
    exact absurd hc (by decide)
  | padRight hc h ih =>
    obtain ⟨c, rest, rfl⟩ := List.exists_cons_of_ne_nil h.ne_nil
    obtain ⟨rfl, rfl⟩ := List.cons.inj htext
    obtain ⟨x, rfl, hx⟩ := ih rfl rfl
    exact ⟨x, rfl, .padRight hc hx⟩
  | operand => cases hlevel
  | binary => cases hlevel

theorem of_vector {xs ys zs : List Char} {x y : Expression} (hx : Reads .whole xs x)
    (hy : Reads .whole ys y)
    (h : Reads .operand
      (['v', 'e', 'c', '3'] ++ '(' :: ((xs ++ ',' :: (ys ++ ',' :: zs)) ++ [')'])) e) :
    ∃ x' y' z', e = .vector x' y' z' ∧ Reads .whole xs x' ∧ Reads .whole ys y' ∧
      Reads .whole zs z' := by
  generalize htext : ['v', 'e', 'c', '3'] ++ '(' :: ((xs ++ ',' :: (ys ++ ',' :: zs)) ++ [')']) =
    text at h
  cases h with
  | leaf h => exact absurd (htext ▸ h) (not_leaf_vec _)
  | parens => exact absurd (List.cons.inj htext).1 (by decide)
  | negation => exact absurd (List.cons.inj htext).1 (by decide)
  | vector hx' hy' hz' =>
    have hitems := List.append_cancel_right (List.cons.inj (List.append_cancel_left htext)).2
    obtain ⟨rfl, hrest⟩ := hx.phrase.comma_unique hx'.phrase hitems
    obtain ⟨rfl, rfl⟩ := hy.phrase.comma_unique hy'.phrase hrest
    exact ⟨_, _, _, rfl, hx', hy', hz'⟩
  | padLeft hc =>
    rw [← (List.cons.inj htext).1] at hc
    exact absurd hc (by decide)
  | padRight hc =>
    rw [← List.cons_append, ← List.append_assoc] at htext
    rw [← List.singleton_inj.1 (List.append_inj_right' htext rfl)] at hc
    exact absurd hc (by decide)

theorem of_binary {op : Operator} {xs ys : List Char} {x y : Expression} (hx : Reads .operand xs x)
    (hy : Reads .operand ys y) (h : Reads .whole (xs ++ ' ' :: (op.chars ++ ' ' :: ys)) e) :
    ∃ x' y', e = .binary op x' y' ∧ Reads .whole xs x' ∧ Reads .whole ys y' := by
  generalize htext : xs ++ ' ' :: (op.chars ++ ' ' :: ys) = text at h
  cases h with
  | operand h => exact absurd (htext ▸ h.solid) hx.solid.not_solid_binary
  | binary op' hx' hy' =>
    obtain ⟨rfl, rfl, rfl⟩ := hx.solid.binary_unique hy.solid hx'.phrase htext
    exact ⟨_, _, rfl, hx'.of_concat_blank (by decide), hy'.of_blank_cons (by decide)⟩

end Reads

/-! ### Expressions as they are written -/

def wrap (cs : List Char) : List Char := if isOpen .plain 0 cs then '(' :: (cs ++ [')']) else cs

theorem toList_operand (s : String) : (FlowGraph.operand s).toList = wrap s.toList := by
  unfold FlowGraph.operand wrap
  split <;> simp

/-- An expression in the form in which it is written: operands with a blank outside brackets and
quotes are in parentheses. -/
inductive Written : List Char → Expression → Prop
  | leaf {cs : List Char} {e : Expression} (h : Leaf cs e) : Written cs e
  | negation {cs : List Char} {e : Expression} (h : Written cs e) :
      Written ('!' :: wrap cs) (negation e)
  | vector {xs ys zs : List Char} {x y z : Expression} (hx : Written xs x) (hy : Written ys y)
      (hz : Written zs z) :
      Written (['v', 'e', 'c', '3'] ++ '(' ::
        ((xs ++ ',' :: (' ' :: ys ++ ',' :: ' ' :: zs)) ++ [')'])) (vector x y z)
  | binary {xs ys : List Char} {x y : Expression} (op : Operator) (hx : Written xs x)
      (hy : Written ys y) :
      Written (wrap xs ++ ' ' :: (op.chars ++ ' ' :: wrap ys)) (binary op x y)

namespace Written

variable {cs : List Char} {e e' : Expression}

theorem reads_wrap (h : Reads .whole cs e ∧ (isOpen .plain 0 cs = false → Reads .operand cs e)) :
    Reads .operand (wrap cs) e := by
  unfold wrap
  split
  · exact .parens h.1
  · next hopen => exact h.2 (Bool.eq_false_iff.2 hopen)

/-- What is written can be read, and as an operand if it is not open. -/
theorem reads (h : Written cs e) :
    Reads .whole cs e ∧ (isOpen .plain 0 cs = false → Reads .operand cs e) := by
  induction h with
  | leaf h => exact ⟨.operand (.leaf h), fun _ => .leaf h⟩
  | negation _ ih =>
    have hread := Reads.negation (reads_wrap ih)
    exact ⟨.operand hread, fun _ => hread⟩
  | vector _ _ _ hx hy hz =>
    have hread := Reads.vector hx.1 (hy.1.blank_cons (c := ' ') (by decide))
      (hz.1.blank_cons (c := ' ') (by decide))
    exact ⟨.operand hread, fun _ => hread⟩
  | @binary xs ys _ _ op _ _ hx hy =>
    have hx := reads_wrap hx
    have hy := reads_wrap hy
    have hread := Reads.binary op (.operand (hx.padRight (c := ' ') (by decide)))
      (.operand (hy.padLeft (c := ' ') (by decide)))
    rw [List.append_assoc, List.singleton_append] at hread
    refine ⟨hread, fun hopen => ?_⟩
    rw [isOpen_append, hx.phrase.closed.scan_eq, isOpen_cons] at hopen
    simp [show Text.isBlank ' ' = true by decide] at hopen

/-- What is written has one reading, however operators bind. -/
theorem unique (h : Written cs e) (h' : Reads .whole cs e') : e' = e := by
  have hwrap : ∀ {cs : List Char} {e e' : Expression}, Written cs e →
      (∀ {e'}, Reads .whole cs e' → e' = e) →
      Reads .whole (wrap cs) e' → e' = e := fun {cs e e'} hcs hunique hread => by
    unfold wrap at hread
    split at hread
    · exact hunique (Reads.of_parens ((Reads.parens hcs.reads.1).of_whole hread))
    · exact hunique hread
  induction h generalizing e' with
  | leaf h => exact Reads.eq_of_leaf h ((Reads.leaf h).of_whole h')
  | negation h ih =>
    have hread := reads_wrap h.reads
    obtain ⟨x, rfl, hx⟩ := Reads.of_negation ((Reads.negation hread).of_whole h')
    rw [hwrap h ih (.operand hx)]
  | vector hx hy hz ihx ihy ihz =>
    have hy' := hy.reads.1.blank_cons (c := ' ') (by decide)
    have hz' := hz.reads.1.blank_cons (c := ' ') (by decide)
    obtain ⟨x, y, z, rfl, hx'', hy'', hz''⟩ :=
      hx.reads.1.of_vector hy' ((Reads.vector hx.reads.1 hy' hz').of_whole h')
    rw [ihx hx'', ihy (hy''.of_blank_cons (by decide)), ihz (hz''.of_blank_cons (by decide))]
  | binary op hx hy ihx ihy =>
    obtain ⟨x, y, rfl, hx', hy'⟩ := (reads_wrap hx.reads).of_binary (reads_wrap hy.reads) h'
    rw [hwrap hx ihx hx', hwrap hy ihy hy']

theorem reads_iff (h : Written cs e) : Reads .whole cs e' ↔ e' = e :=
  ⟨h.unique, fun heq => heq ▸ h.reads.1⟩

end Written

end Expression
end FlowGraph
