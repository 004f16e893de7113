import FlowGraph.Proofs.ExpressionGrammar

/-! A grammar of expressions with members. Access to a member binds tighter than a sign in front of
an operand, and signs bind tighter than operators; a leading minus is a sign. Texts in the form in
which expressions are written have one reading: behind a text with signs in front, a member is taken
of what follows the signs. -/
namespace FlowGraph

inductive Sign where
  | bang
  | minus
deriving DecidableEq

namespace Sign

def char : Sign → Char
  | bang => '!'
  | minus => '-'

theorem isSign_char (sign : Sign) : Text.isSign sign.char = true := by
  cases sign <;> decide

theorem isBlank_char (sign : Sign) : Text.isBlank sign.char = false := by
  cases sign <;> decide

theorem eq_of_char_eq {sign sign' : Sign} (h : sign.char = sign'.char) : sign = sign' := by
  revert h
  cases sign <;> cases sign' <;> decide

end Sign

inductive Term where
  /-- Numbers with a sign are no literals. -/
  | literal (v : Value)
  | name (s : String)
  | vector (x y z : Term)
  | member (base : Term) (label : String)
  | prefixed (sign : Sign) (x : Term)
  | binary (op : Operator) (x y : Term)
deriving DecidableEq

namespace Term

open Operand Text
open Expression (Atom Solid Phrase isWordPart isWordPart_plain isWordPart_of_isName wrap)

inductive Level where
  | primary
  | operand
  | whole

inductive Leaf : List Char → Term → Prop
  | literal {cs : List Char} {v : Value} (h : Expression.Leaf cs (.literal v))
      (hsign : cs.head? ≠ some '-') :
      Leaf cs (literal v)
  | name {s : String} (h : Module.IsName s) (hfree : s ∉ Expression.valueWords) :
      Leaf s.toList (name s)

/-- The readings of a text. A member is taken of a primary, a sign takes an operand, and operators
stand between any two expressions, so that they bind in every way. Blanks are free in front of
operands and behind primaries. -/
inductive Reads : Level → List Char → Term → Prop
  | leaf {cs : List Char} {e : Term} (h : Leaf cs e) : Reads .primary cs e
  | parens {cs : List Char} {e : Term} (h : Reads .whole cs e) :
      Reads .primary ('(' :: (cs ++ [')'])) e
  | vector {xs ys zs : List Char} {x y z : Term} (hx : Reads .whole xs x) (hy : Reads .whole ys y)
      (hz : Reads .whole zs z) :
      Reads .primary (['v', 'e', 'c', '3'] ++ '(' :: ((xs ++ ',' :: (ys ++ ',' :: zs)) ++ [')']))
        (vector x y z)
  | member {cs : List Char} {e : Term} {label : String} (hname : Module.IsName label)
      (h : Reads .primary cs e) :
      Reads .primary (cs ++ '.' :: label.toList) (member e label)
  | padRight {c : Char} {cs : List Char} {e : Term} (hc : isBlank c = true)
      (h : Reads .primary cs e) :
      Reads .primary (cs ++ [c]) e
  | primary {cs : List Char} {e : Term} (h : Reads .primary cs e) : Reads .operand cs e
  | prefixed {cs : List Char} {e : Term} (sign : Sign) (h : Reads .operand cs e) :
      Reads .operand (sign.char :: cs) (prefixed sign e)
  | padLeft {c : Char} {cs : List Char} {e : Term} (hc : isBlank c = true)
      (h : Reads .operand cs e) :
      Reads .operand (c :: cs) e
  | operand {cs : List Char} {e : Term} (h : Reads .operand cs e) : Reads .whole cs e
  | binary {xs ys : List Char} {x y : Term} (op : Operator) (hx : Reads .whole xs x)
      (hy : Reads .whole ys y) :
      Reads .whole (xs ++ (op.chars ++ ys)) (binary op x y)

/-! ### Names behind a point -/

/-- The last mark of a text is found from behind. -/
theorem eq_of_mark_append {c : Char} {xs ys as bs : List Char} (ha : c ∉ as) (hb : c ∉ bs)
    (heq : xs ++ c :: as = ys ++ c :: bs) : xs = ys ∧ as = bs := by
  rcases append_eq_mark heq with ⟨m, -, hm⟩ | ⟨m, rfl, hm⟩
  · simp [hm] at hb
  · cases m with
    | nil => exact ⟨by simp, (List.cons.inj hm).2⟩
    | cons d m => simp [(List.cons.inj hm).2] at ha

section Label

variable {cs : List Char} {label : String} (hname : Module.IsName label)
include hname

theorem isWordPart_label : ∀ c ∈ '.' :: label.toList, isWordPart c = true := by
  intro c hc
  rcases List.mem_cons.1 hc with rfl | hc
  · rw [isWordPart, beq_self_eq_true, Bool.or_true]
  · exact isWordPart_of_isName hname c hc

/-- A text that ends in a name ends in no other character. -/
theorem label_ne_concat {c : Char} (hc : isNameChar c = false) (xs : List Char) :
    cs ++ '.' :: label.toList ≠ xs ++ [c] := by
  intro heq
  rcases List.eq_nil_or_concat label.toList with hnil | ⟨front, d, hlast⟩
  · obtain ⟨d, hhead, -⟩ := hname.2
    simp [hnil] at hhead
  · have hd : isNameChar d = true := List.all_eq_true.1 hname.1 d (by simp [hlast])
    rw [hlast, List.concat_eq_append, ← List.cons_append, ← List.append_assoc] at heq
    rw [List.singleton_inj.1 (List.append_inj_right' heq rfl), hc] at hd
    cases hd

end Label

/-! ### Leaves -/

namespace Leaf

variable {cs : List Char} {e e' : Term}

theorem exists_expression (h : Leaf cs e) : ∃ x, Expression.Leaf cs x := by
  cases h with
  | literal h => exact ⟨_, h⟩
  | name h hfree => exact ⟨_, .word (.name h hfree)⟩

theorem atom (h : Leaf cs e) : Atom cs := by
  obtain ⟨x, hx⟩ := h.exists_expression
  exact hx.atom

theorem unique (h : Leaf cs e) (h' : Leaf cs e') : e' = e := by
  generalize htext : cs = text at h'
  cases h with
  | literal h =>
    cases h' with
    | literal h' => rw [Expression.literal.inj (h'.unique h htext.symm)]
    | name h' hfree' => cases (Expression.Leaf.word (.name h' hfree')).unique h htext.symm
  | name h hfree =>
    cases h' with
    | literal h' => cases h'.unique (.word (.name h hfree)) htext.symm
    | name => rw [String.toList_inj.1 htext]

/-- The first character of a leaf is no sign. -/
theorem first (h : Leaf cs e) :
    ∃ c rest, cs = c :: rest ∧ isBlank c = false ∧ isSign c = false := by
  obtain ⟨c, rest, rfl, hblank, -⟩ := h.atom.first
  refine ⟨c, rest, rfl, hblank, ?_⟩
  generalize htext : c :: rest = text at h
  cases h with
  | literal h hsign =>
    subst htext
    generalize htext : c :: rest = text at h
    cases h with
    | word h =>
      obtain ⟨part, rfl | rfl, -, hpart⟩ := h.isWord
      · exact (isWordPart_plain (hpart c (htext ▸ List.mem_cons_self))).1
      · rw [(List.cons.inj htext).1] at hsign
        simp at hsign
    | text =>
      rw [(List.cons.inj htext).1]
      decide
    | vector =>
      rw [(List.cons.inj htext).1]
      decide
  | name h => exact (isWordPart_plain (isWordPart_of_isName h c (htext ▸ List.mem_cons_self))).1

/-- The point of a number has a digit behind it. -/
theorem numeral_ne_label {d : Decimal} {label : String} (h : Script.Numeral cs d)
    (hname : Module.IsName label) (ds : List Char) : cs ≠ ds ++ '.' :: label.toList := by
  have hpoint : ∀ {ds : List Char}, (∀ c ∈ ds, Script.isDigit c = true) → '.' ∉ ds :=
    fun hds hmem =>
    absurd (hds '.' hmem) (by decide)
  intro heq
  cases h with
  | whole _ digits => exact hpoint digits (by simp [heq])
  | fraction _ _ _ moreDigits =>
    obtain ⟨-, hlabel⟩ := eq_of_mark_append (hpoint moreDigits) (Expression.point_not_mem hname) heq
    obtain ⟨c, hhead, hnumeral⟩ := hname.2
    rw [← hlabel] at hhead
    have hdigit := Script.isDigit_bounds (moreDigits c (List.mem_of_head? hhead))
    rw [Module.isNumeral_of_bounds hdigit] at hnumeral
    cases hnumeral

theorem spelled_ne_label {n : Number} {label : String} (h : Script.Spelled Number.sourceLayout cs n)
    (hname : Module.IsName label) (ds : List Char) : cs ≠ ds ++ '.' :: label.toList := by
  intro heq
  have hmem : '.' ∈ cs := by simp [heq]
  cases h with
  | nan => exact absurd hmem (by decide)
  | infinite => exact absurd hmem (by decide)
  | minusInfinite => exact absurd hmem (by decide)
  | unsigned numeral => exact numeral_ne_label numeral hname ds heq
  | negative numeral =>
    cases ds with
    | nil => simp at heq
    | cons c ds => exact numeral_ne_label numeral hname ds (List.cons.inj heq).2

/-- No leaf has a member at its end. -/
theorem ne_label (h : Leaf cs e) {label : String} (hname : Module.IsName label) (ds : List Char) :
    cs ≠ ds ++ '.' :: label.toList := by
  intro heq
  have hmem : '.' ∈ cs := by simp [heq]
  cases h with
  | literal h =>
    generalize hvalue : Expression.literal _ = x at h
    cases h with
    | word h =>
      cases h with
      | number h => exact spelled_ne_label h hname ds heq
      | bool b =>
        revert hmem
        cases b <;> decide
      | name => cases hvalue
      | property => cases hvalue
    | text =>
      rw [← List.cons_append] at heq
      exact label_ne_concat hname (isNameChar_of_mem_punctuation (by decide)) _ heq.symm
    | vector =>
      rw [← List.cons_append] at heq
      exact label_ne_concat hname (isNameChar_of_mem_punctuation (by decide)) _ heq.symm
  | name h => exact Expression.point_not_mem h hmem

end Leaf

/-! ### Readings of each form -/

namespace Reads

variable {level : Level} {cs : List Char} {e e' : Term}

/-- What is read is a phrase, and solid unless it may hold an operator. -/
theorem phrase_and_solid (h : Reads level cs e) : Phrase cs ∧ (level ≠ .whole → Solid cs) := by
  have hboth : ∀ {level : Level} {cs : List Char}, Solid cs → Phrase cs ∧
      (level ≠ .whole → Solid cs) :=
    fun h => ⟨h.toPhrase, fun _ => h⟩
  have hprimary : Level.primary ≠ .whole := fun h => by cases h
  have hoperand : Level.operand ≠ .whole := fun h => by cases h
  induction h with
  | leaf h => exact hboth h.atom.solid
  | parens _ ih => exact hboth ih.1.parens
  | vector _ _ _ hx hy hz => exact hboth (hx.1.vec hy.1 hz.1)
  | member hname _ ih => exact hboth ((ih.2 hprimary).append_word (isWordPart_label hname))
  | padRight hc _ ih => exact hboth ((ih.2 hprimary).padRight hc)
  | primary _ ih => exact hboth (ih.2 hprimary)
  | prefixed sign _ ih => exact hboth ((ih.2 hoperand).signed sign.isSign_char)
  | padLeft hc _ ih => exact hboth ((ih.2 hoperand).padLeft hc)
  | operand _ ih => exact ⟨ih.1, fun hlevel => absurd rfl hlevel⟩
  | binary op _ _ hx hy => exact ⟨hx.1.binary op hy.1, fun hlevel => absurd rfl hlevel⟩

theorem phrase (h : Reads level cs e) : Phrase cs := h.phrase_and_solid.1

theorem solid (h : Reads .operand cs e) : Solid cs := h.phrase_and_solid.2 fun h => by cases h

theorem ne_nil (h : Reads level cs e) : cs ≠ [] := h.phrase.ends.ne_nil

/-- What can be an operand has no operator outside brackets and quotes. -/
theorem of_whole (hsolid : Solid cs) (h : Reads .whole cs e) : Reads .operand cs e := by
  cases h with
  | operand h => exact h
  | binary op hx _ => exact absurd rfl (hsolid.ne_binary hx.phrase)

/-- A primary has no sign and no blank in front. -/
theorem first (h : Reads .primary cs e) :
    ∃ c rest, cs = c :: rest ∧ isBlank c = false ∧ isSign c = false := by
  generalize hlevel : Level.primary = level at h
  induction h with
  | leaf h => exact h.first
  | parens => exact ⟨_, _, rfl, by decide, by decide⟩
  | vector => exact ⟨_, _, rfl, by decide, by decide⟩
  | member _ _ ih =>
    obtain ⟨c, rest, rfl, hc⟩ := ih hlevel
    exact ⟨c, _, List.cons_append, hc⟩
  | padRight _ _ ih =>
    obtain ⟨c, rest, rfl, hc⟩ := ih hlevel
    exact ⟨c, _, List.cons_append, hc⟩
  | _ => cases hlevel

/-- Where a primary can be read, no sign is read in front of one. -/
theorem of_operand (h' : Reads .primary cs e') (h : Reads .operand cs e) : Reads .primary cs e := by
  obtain ⟨c, rest, hcs, hblank, hsign⟩ := h'.first
  cases h with
  | primary h => exact h
  | prefixed sign =>
    rw [← (List.cons.inj hcs).1, sign.isSign_char] at hsign
    cases hsign
  | padLeft hc =>
    rw [(List.cons.inj hcs).1, hblank] at hc
    cases hc

theorem of_prefixed {sign : Sign} (h : Reads .operand (sign.char :: cs) e) :
    ∃ x, e = .prefixed sign x ∧ Reads .operand cs x := by
  generalize htext : sign.char :: cs = text at h
  cases h with
  | primary h =>
    obtain ⟨c, rest, rfl, -, hsign⟩ := h.first
    rw [← (List.cons.inj htext).1, sign.isSign_char] at hsign
    cases hsign
  | prefixed sign' h =>
    obtain ⟨hchar, rfl⟩ := List.cons.inj htext
    obtain rfl := Sign.eq_of_char_eq hchar
    exact ⟨_, rfl, h⟩
  | padLeft hc =>
    rw [← (List.cons.inj htext).1, sign.isBlank_char] at hc
    cases hc

theorem eq_of_leaf (hleaf : Leaf cs e) (h : Reads .primary cs e') : e' = e := by
  obtain ⟨c, rest, hfirst, hblank, hparen, -⟩ := hleaf.atom.first
  obtain ⟨front, d, hlast, hblank', -⟩ := hleaf.atom.last
  cases h with
  | leaf h => exact hleaf.unique h
  | parens => exact absurd (List.cons.inj hfirst).1.symm hparen
  | vector =>
    obtain ⟨x, hx⟩ := hleaf.exists_expression
    exact absurd hx (Expression.not_leaf_vec _)
  | member hname => exact absurd rfl (hleaf.ne_label hname _)
  | padRight hc =>
    rw [List.singleton_inj.1 (List.append_inj_right' hlast rfl), hblank'] at hc
    cases hc

theorem of_parens (h : Reads .primary ('(' :: (cs ++ [')'])) e) : Reads .whole cs e := by
  generalize htext : '(' :: (cs ++ [')']) = text at h
  cases h with
  | leaf h =>
    obtain ⟨c, rest, rfl, -, hparen, -⟩ := h.atom.first
    exact absurd (List.cons.inj htext).1.symm hparen
  | parens h => exact List.append_cancel_right (List.cons.inj htext).2 ▸ h
  | vector => exact absurd (List.cons.inj htext).1 (by decide)
  | member hname =>
    rw [← List.cons_append] at htext
    exact absurd htext.symm (label_ne_concat hname (isNameChar_of_mem_punctuation (by decide)) _)
  | padRight hc =>
    rw [← List.cons_append] at htext
    rw [← List.singleton_inj.1 (List.append_inj_right' htext rfl)] at hc
    exact absurd hc (by decide)

theorem of_vector {xs ys zs : List Char} (hx : Phrase xs) (hy : Phrase ys)
    (h : Reads .primary
      (['v', 'e', 'c', '3'] ++ '(' :: ((xs ++ ',' :: (ys ++ ',' :: zs)) ++ [')'])) e) :
    ∃ x y z, e = .vector x y z ∧ Reads .whole xs x ∧ Reads .whole ys y ∧ Reads .whole zs z := by
  generalize htext : ['v', 'e', 'c', '3'] ++ '(' :: ((xs ++ ',' :: (ys ++ ',' :: zs)) ++ [')']) =
    text at h
  cases h with
  | leaf h =>
    obtain ⟨x, hx⟩ := h.exists_expression
    exact absurd (htext ▸ hx) (Expression.not_leaf_vec _)
  | parens => exact absurd (List.cons.inj htext).1 (by decide)
  | vector hx' hy' hz' =>
    have hitems := List.append_cancel_right (List.cons.inj (List.append_cancel_left htext)).2
    obtain ⟨rfl, hrest⟩ := hx.comma_unique hx'.phrase hitems
    obtain ⟨rfl, rfl⟩ := hy.comma_unique hy'.phrase hrest
    exact ⟨_, _, _, rfl, hx', hy', hz'⟩
  | member hname =>
    rw [← List.cons_append, ← List.append_assoc] at htext
    exact absurd htext.symm (label_ne_concat hname (isNameChar_of_mem_punctuation (by decide)) _)
  | padRight hc =>
    rw [← List.cons_append, ← List.append_assoc] at htext
    rw [← List.singleton_inj.1 (List.append_inj_right' htext rfl)] at hc
    exact absurd hc (by decide)

theorem of_member {label : String} (hname : Module.IsName label)
    (h : Reads .primary (cs ++ '.' :: label.toList) e) :
    ∃ x, e = .member x label ∧ Reads .primary cs x := by
  generalize htext : cs ++ '.' :: label.toList = text at h
  cases h with
  | leaf h => exact absurd htext.symm (h.ne_label hname cs)
  | parens =>
    rw [← List.cons_append] at htext
    exact absurd htext (label_ne_concat hname (isNameChar_of_mem_punctuation (by decide)) _)
  | vector =>
    rw [← List.cons_append, ← List.append_assoc] at htext
    exact absurd htext (label_ne_concat hname (isNameChar_of_mem_punctuation (by decide)) _)
  | member hname' h =>
    obtain ⟨rfl, hlabel⟩ :=
      eq_of_mark_append (Expression.point_not_mem hname) (Expression.point_not_mem hname') htext
    obtain rfl := String.toList_inj.1 hlabel
    exact ⟨_, rfl, h⟩
  | padRight hc => exact absurd htext (label_ne_concat hname (isNameChar_of_isBlank hc) _)

/-! ### Blanks -/

theorem of_blank_cons {c : Char} (hc : isBlank c = true) (h : Reads .whole (c :: cs) e) :
    Reads .whole cs e := by
  generalize hlevel : Level.whole = level at h
  generalize htext : c :: cs = text at h
  induction h generalizing cs with
  | operand h =>
    cases h with
    | primary h =>
      obtain ⟨d, rest, rfl, hblank, -⟩ := h.first
      rw [← (List.cons.inj htext).1, hc] at hblank
      cases hblank
    | prefixed sign =>
      rw [(List.cons.inj htext).1, sign.isBlank_char] at hc
      cases hc
    | padLeft _ h => exact .operand ((List.cons.inj htext).2 ▸ h)
  | binary op hx hy ihx =>
    obtain ⟨d, rest, rfl⟩ := List.exists_cons_of_ne_nil hx.ne_nil
    obtain ⟨rfl, rfl⟩ := List.cons.inj htext
    exact .binary op (ihx rfl rfl) hy
  | _ => cases hlevel

theorem of_concat_blank {c : Char} (hc : isBlank c = true) (h : Reads level (cs ++ [c]) e) :
    Reads level cs e := by
  have hparen : ∀ {cs front : List Char}, cs ++ [c] ≠ front ++ [')'] := fun heq => by
    rw [List.singleton_inj.1 (List.append_inj_right' heq rfl)] at hc
    exact absurd hc (by decide)
  generalize htext : cs ++ [c] = text at h
  induction h generalizing cs with
  | leaf h =>
    obtain ⟨front, d, rfl, hblank, -⟩ := h.atom.last
    rw [← List.singleton_inj.1 (List.append_inj_right' htext rfl), hc] at hblank
    cases hblank
  | parens => exact absurd (htext.trans List.cons_append.symm) hparen
  | vector => exact absurd (htext.trans (List.append_assoc _ ('(' :: _) _).symm) hparen
  | member hname => exact absurd htext.symm (label_ne_concat hname (isNameChar_of_isBlank hc) _)
  | padRight _ h => exact List.append_inj_left' htext rfl ▸ h
  | primary _ ih => exact .primary (ih htext)
  | prefixed sign h ih =>
    cases cs with
    | nil => exact absurd (List.cons.inj htext).2.symm h.ne_nil
    | cons d cs =>
      obtain ⟨rfl, htail⟩ := List.cons.inj htext
      exact .prefixed sign (ih htail)
  | padLeft hb h ih =>
    cases cs with
    | nil => exact absurd (List.cons.inj htext).2.symm h.ne_nil
    | cons d cs =>
      obtain ⟨rfl, htail⟩ := List.cons.inj htext
      exact .padLeft hb (ih htail)
  | operand _ ih => exact .operand (ih htext)
  | binary op hx hy _ ihy =>
    have hlast := List.dropLast_concat_getLast hy.ne_nil
    rw [← hlast, ← List.append_assoc, ← List.append_assoc] at htext
    obtain rfl := List.append_inj_left' htext rfl
    have hc' := List.singleton_inj.1 (List.append_inj_right' htext rfl)
    rw [List.append_assoc]
    exact .binary op hx (ihy (hc' ▸ hlast))

theorem blank_cons {c : Char} (hc : isBlank c = true) (h : Reads .whole cs e) :
    Reads .whole (c :: cs) e := by
  generalize hlevel : Level.whole = level at h
  induction h with
  | operand h => exact .operand (.padLeft hc h)
  | binary op _ hy ihx => exact .binary op (ihx rfl) hy
  | _ => cases hlevel

theorem concat_blank {c : Char} (hc : isBlank c = true) (h : Reads .operand cs e) :
    Reads .operand (cs ++ [c]) e := by
  generalize hlevel : Level.operand = level at h
  induction h with
  | primary h => exact .primary (.padRight hc h)
  | prefixed sign _ ih => exact .prefixed sign (ih rfl)
  | padLeft hb _ ih => exact .padLeft hb (ih rfl)
  | _ => cases hlevel

theorem of_binary {op : Operator} {xs ys : List Char} (hx : Solid xs) (hy : Solid ys)
    (h : Reads .whole (xs ++ ' ' :: (op.chars ++ ' ' :: ys)) e) :
    ∃ x y, e = .binary op x y ∧ Reads .operand xs x ∧ Reads .operand ys y := by
  generalize htext : xs ++ ' ' :: (op.chars ++ ' ' :: ys) = text at h
  cases h with
  | operand h => exact absurd (htext ▸ h.solid) hx.not_solid_binary
  | binary op' hx' hy' =>
    obtain ⟨rfl, rfl, rfl⟩ := hx.binary_unique hy hx'.phrase htext
    exact ⟨_, _, rfl, of_whole hx (hx'.of_concat_blank (by decide)),
      of_whole hy (hy'.of_blank_cons (by decide))⟩

end Reads

/-! ### Expressions as they are written -/

def isPrefixed : Term → Bool
  | prefixed _ _ => true
  | _ => false

/-- The member of a term whose text has nothing around it: signs in front of the text take in the
member. -/
def access (label : String) : Term → Term
  | prefixed sign x => prefixed sign (x.access label)
  | e => member e label

theorem access_of_not_prefixed {e : Term} (h : e.isPrefixed = false) (label : String) :
    e.access label = .member e label := by
  cases e <;> simp_all [isPrefixed, access]

/-- How a term reads whose members are taken without parentheses around signs. -/
def settle : Term → Term
  | literal v => literal v
  | name s => name s
  | vector x y z => vector x.settle y.settle z.settle
  | member base label => base.settle.access label
  | prefixed sign x => prefixed sign x.settle
  | binary op x y => binary op x.settle y.settle

def upright : Term → Bool
  | vector x y z => x.upright && y.upright && z.upright
  | member base _ => base.upright && !base.isPrefixed
  | prefixed _ x => x.upright
  | binary _ x y => x.upright && y.upright
  | _ => true

theorem isPrefixed_access (e : Term) (label : String) :
    (e.access label).isPrefixed = e.isPrefixed := by
  cases e <;> simp [access, isPrefixed]

theorem settle_eq_self_iff (e : Term) : e.settle = e ↔ e.upright = true := by
  induction e with
  | literal | name => simp [settle, upright]
  | vector x y z hx hy hz => simp [settle, upright, hx, hy, hz, and_assoc]
  | member base label ih =>
    have hupright : (member base label).upright = true ↔ base.settle = base ∧
        base.isPrefixed = false := by
      simp [upright, ih]
    rw [hupright, settle]
    cases hsign : base.settle.isPrefixed with
    | false =>
      rw [access_of_not_prefixed hsign, member.injEq]
      exact ⟨fun h => ⟨h.1, h.1 ▸ hsign⟩, fun h => ⟨h.1, rfl⟩⟩
    | true =>
      have hne : base.settle.access label ≠ member base label := fun heq => by
        rw [← isPrefixed_access base.settle label, heq] at hsign
        cases hsign
      have hnot : ¬(base.settle = base ∧ base.isPrefixed = false) := fun h => by
        rw [h.1, h.2] at hsign
        cases hsign
      exact iff_of_false hne hnot
  | prefixed sign x hx => simp [settle, upright, hx]
  | binary op x y hx hy => simp [settle, upright, hx, hy]

theorem sizeOf_access (e : Term) (label : String) :
    sizeOf (e.access label) = sizeOf (member e label) := by
  induction e with
  | prefixed sign x ih =>
    simp only [access, prefixed.sizeOf_spec, member.sizeOf_spec, ih]
    omega
  | _ => simp [access]

theorem sizeOf_settle (e : Term) : sizeOf e.settle = sizeOf e := by
  induction e with
  | literal | name => rfl
  | vector x y z hx hy hz => simp [settle, hx, hy, hz]
  | member base label ih => simp [settle, sizeOf_access, ih]
  | prefixed sign x ih => simp [settle, ih]
  | binary op x y hx hy => simp [settle, hx, hy]

/-- An operand as it is written: signs, and behind them a primary with one reading, in which no sign
comes first. -/
inductive Stem : List Char → Term → Prop
  | core {cs : List Char} {e : Term} (hsole : ∀ x, Reads .primary cs x ↔ x = e)
      (hplain : e.isPrefixed = false) :
      Stem cs e
  | prefixed {cs : List Char} {e : Term} (sign : Sign) (h : Stem cs e) :
      Stem (sign.char :: cs) (prefixed sign e)

namespace Stem

variable {cs : List Char} {e : Term}

theorem reads_iff (h : Stem cs e) (x : Term) : Reads .operand cs x ↔ x = e := by
  induction h generalizing x with
  | core hsole =>
    have hread := (hsole _).2 rfl
    exact ⟨fun h => (hsole x).1 (hread.of_operand h), fun h => .primary ((hsole x).2 h)⟩
  | prefixed sign _ ih =>
    constructor
    · intro h
      obtain ⟨y, rfl, hy⟩ := h.of_prefixed
      rw [(ih y).1 hy]
    · rintro rfl
      exact .prefixed sign ((ih _).2 rfl)

theorem solid (h : Stem cs e) : Solid cs := ((h.reads_iff e).2 rfl).solid

theorem reads_whole_iff (h : Stem cs e) (x : Term) : Reads .whole cs x ↔ x = e :=
  ⟨fun hx => (h.reads_iff x).1 (Reads.of_whole h.solid hx),
    fun hx => .operand ((h.reads_iff x).2 hx)⟩

/-- A member goes to what is behind the signs. -/
theorem member (h : Stem cs e) {label : String} (hname : Module.IsName label) :
    Stem (cs ++ '.' :: label.toList) (e.access label) := by
  induction h with
  | @core cs e hsole hplain =>
    rw [access_of_not_prefixed hplain]
    refine .core (fun x => ⟨fun hx => ?_, ?_⟩) rfl
    · obtain ⟨y, rfl, hy⟩ := hx.of_member hname
      rw [(hsole y).1 hy]
    · rintro rfl
      exact .member hname ((hsole e).2 rfl)
  | prefixed sign _ ih => exact .prefixed sign ih

theorem leaf (h : Leaf cs e) : Stem cs e := by
  refine .core (fun x => ⟨Reads.eq_of_leaf h, ?_⟩) (by cases h <;> rfl)
  rintro rfl
  exact .leaf h

end Stem

/-- A text as it is written for a term. It has one reading; as an operand it needs no parentheses
unless a blank stands outside brackets and quotes, and then no sign comes first. -/
structure Spelt (cs : List Char) (e : Term) : Prop where
  reads_iff : ∀ x, Reads .whole cs x ↔ x = e
  stem : isOpen .plain 0 cs = false → Stem cs e
  plain : isOpen .plain 0 cs = true → e.isPrefixed = false

namespace Spelt

variable {cs : List Char} {e : Term}

theorem of_stem (h : Stem cs e) (hopen : isOpen .plain 0 cs = false) : Spelt cs e :=
  ⟨h.reads_whole_iff, fun _ => h, fun hopen' => by rw [hopen] at hopen'; cases hopen'⟩

theorem phrase (h : Spelt cs e) : Phrase cs := ((h.reads_iff e).2 rfl).phrase

theorem stem_wrap (h : Spelt cs e) : Stem (wrap cs) e := by
  cases hopen : isOpen .plain 0 cs with
  | false => simpa [wrap, hopen] using h.stem hopen
  | true =>
    have hsole : ∀ x, Reads .primary ('(' :: (cs ++ [')'])) x ↔ x = e := fun x =>
      ⟨fun hx => (h.reads_iff x).1 hx.of_parens, fun hx => .parens ((h.reads_iff x).2 hx)⟩
    simpa [wrap, hopen] using Stem.core hsole (h.plain hopen)

theorem isOpen_wrap (h : Spelt cs e) : isOpen .plain 0 (wrap cs) = false := by
  cases hopen : isOpen .plain 0 cs with
  | false => simp [wrap, hopen]
  | true => simpa [wrap, hopen] using h.phrase.closed.isOpen_bracketed (.inl rfl) (.inl rfl)

theorem leaf (h : Leaf cs e) : Spelt cs e := .of_stem (.leaf h) h.atom.isOpen_eq

theorem isOpen_char_cons (sign : Sign) (h : isOpen .plain 0 cs = false) :
    isOpen .plain 0 (sign.char :: cs) = false := by
  rw [isOpen_cons, sign.isBlank_char, step_of_not_mem_marks
    (not_mem_marks_of_isSign sign.isSign_char), h]
  rfl

theorem minus (h : Leaf cs e) : Spelt ('-' :: cs) (.prefixed .minus e) :=
  .of_stem (.prefixed .minus (.leaf h)) (isOpen_char_cons .minus h.atom.isOpen_eq)

theorem negation (h : Spelt cs e) : Spelt ('!' :: wrap cs) (.prefixed .bang e) :=
  .of_stem (.prefixed .bang h.stem_wrap) (isOpen_char_cons .bang h.isOpen_wrap)

theorem member (h : Spelt cs e) {label : String} (hname : Module.IsName label) :
    Spelt (wrap cs ++ '.' :: label.toList) (e.access label) := by
  refine .of_stem (h.stem_wrap.member hname) ?_
  rw [isOpen_append, h.isOpen_wrap, h.stem_wrap.solid.closed.scan_eq, Bool.false_or]
  refine Expression.isOpen_of_no_blank fun c hc => ?_
  obtain ⟨-, hblank, hmark, -⟩ := isWordPart_plain (isWordPart_label hname c hc)
  exact ⟨hmark, hblank⟩

theorem vector {xs ys zs : List Char} {x y z : Term} (hx : Spelt xs x) (hy : Spelt ys y)
    (hz : Spelt zs z) :
    Spelt (['v', 'e', 'c', '3'] ++ '(' :: ((xs ++ ',' :: (' ' :: ys ++ ',' :: ' ' :: zs)) ++ [')']))
      (.vector x y z) := by
  have hblank : isBlank ' ' = true := by decide
  have hx' := (hx.reads_iff x).2 rfl
  have hy' := ((hy.reads_iff y).2 rfl).blank_cons hblank
  have hz' := ((hz.reads_iff z).2 rfl).blank_cons hblank
  refine .of_stem (.core (fun e => ⟨fun h => ?_, ?_⟩) rfl) ?_
  · obtain ⟨x', y', z', rfl, hx', hy', hz'⟩ := h.of_vector hx.phrase hy'.phrase
    rw [(hx.reads_iff x').1 hx', (hy.reads_iff y').1 (hy'.of_blank_cons hblank),
      (hz.reads_iff z').1 (hz'.of_blank_cons hblank)]
  · rintro rfl
    exact .vector hx' hy' hz'
  · have hitems := Expression.closed_comma hx'.phrase.closed
      (Expression.closed_comma hy'.phrase.closed hz'.phrase.closed)
    exact hitems.isOpen_bracketed (.inl rfl) (.inl rfl)

theorem binary {xs ys : List Char} {x y : Term} (op : Operator) (hx : Spelt xs x)
    (hy : Spelt ys y) :
    Spelt (wrap xs ++ ' ' :: (op.chars ++ ' ' :: wrap ys)) (.binary op x y) := by
  have hblank : isBlank ' ' = true := by decide
  refine ⟨fun e => ⟨fun h => ?_, ?_⟩, fun hopen => ?_, fun _ => rfl⟩
  · obtain ⟨x', y', rfl, hx', hy'⟩ := h.of_binary hx.stem_wrap.solid hy.stem_wrap.solid
    rw [(hx.stem_wrap.reads_iff x').1 hx', (hy.stem_wrap.reads_iff y').1 hy']
  · rintro rfl
    have hx' := ((hx.stem_wrap.reads_iff x).2 rfl).concat_blank hblank
    have hy' := ((hy.stem_wrap.reads_whole_iff y).2 rfl).blank_cons hblank
    simpa using Reads.binary op (.operand hx') hy'
  · rw [isOpen_append, hx.stem_wrap.solid.closed.scan_eq, isOpen_cons] at hopen
    simp [hblank] at hopen

end Spelt

end Term
end FlowGraph
