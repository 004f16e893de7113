/-! Texts: classes of characters, blanks and lines, quoted text, and the lines and columns of byte
offsets. -/
namespace FlowGraph.Text

/-! ### Ranges of characters -/

/-- Whether a character lies in one of the ranges, ends included. -/
def inRanges (ranges : List (Nat × Nat)) (c : Char) : Bool :=
  ranges.any fun r => decide (r.1 ≤ c.toNat) && decide (c.toNat ≤ r.2)

/-! ### Blanks and lines -/

def blankRanges : List (Nat × Nat) := [
  (0x9, 0xd), (0x20, 0x20), (0x85, 0x85), (0xa0, 0xa0), (0x1680, 0x1680), (0x2000, 0x200a),
  (0x2028, 0x2029), (0x202f, 0x202f), (0x205f, 0x205f), (0x3000, 0x3000)]

def isBlank (c : Char) : Bool := inRanges blankRanges c

/-- Drops leading and trailing blanks. -/
def trim (cs : List Char) : List Char :=
  ((cs.dropWhile isBlank).reverse.dropWhile isBlank).reverse

/-- Nothing but blanks. -/
def allBlank (cs : List Char) : Bool := cs.all isBlank

/-- Cuts at every `separator`. There is always at least one piece. -/
def splitAt (separator : Char) : List Char → List (List Char)
  | [] => [[]]
  | c :: cs =>
    if c = separator then [] :: splitAt separator cs
    else match splitAt separator cs with
      | [] => [[c]]
      | piece :: pieces => (c :: piece) :: pieces

/-- One carriage return at the end of a line belongs to the line break. -/
def dropReturn (line : List Char) : List Char :=
  if line.getLast? = some '\r' then line.dropLast else line

/-- The lines of a text. A newline ends a line, so that none follows the last one. -/
def lines (cs : List Char) : List (List Char) :=
  let pieces := splitAt '\n' cs
  match pieces.getLast? with
  | some [] => pieces.dropLast.map dropReturn
  | some last => pieces.dropLast.map dropReturn ++ [last]
  | none => []

/-! ### Pieces of generated source -/

def isBlankText (s : String) : Bool := allBlank s.toList

def joinLines (lines : List String) : String := String.intercalate "\n" lines

/-- Puts pieces one below the other and leaves out those without a visible character. -/
def stack (chunks : List String) : String := joinLines (chunks.filter (!isBlankText ·))

/-- A text without its leading and trailing blanks. -/
def trimText (s : String) : String := String.ofList (trim s.toList)

def linesOf (s : String) : List String := (lines s.toList).map String.ofList

/-! ### Quoted text -/

/-- How a character is written inside quotes. -/
def escape : Char → List Char
  | '\x22' => ['\\', '\x22']
  | '\\' => ['\\', '\\']
  | '\n' => ['\\', 'n']
  | '\t' => ['\\', 't']
  | '\r' => ['\\', 'r']
  | c => [c]

def escapeAll (cs : List Char) : List Char := cs.flatMap escape

def quote (s : String) : String :=
  String.ofList ('\x22' :: (escapeAll s.toList ++ ['\x22']))

/-- The character that a backslash and `c` stand for; other pairs stand for themselves. -/
def unescaped? : Char → Option Char
  | '\x22' => some '\x22'
  | '\\' => some '\\'
  | 'n' => some '\n'
  | 't' => some '\t'
  | 'r' => some '\r'
  | _ => none

/-- Reads escapes. A pair that is no escape stays as it is written. -/
def unescapeAll : List Char → List Char
  | '\\' :: c :: cs =>
    match unescaped? c with
    | some d => d :: unescapeAll cs
    | none => '\\' :: c :: unescapeAll cs
  | c :: cs => c :: unescapeAll cs
  | [] => []

theorem unescapeAll_escape_append (c : Char) (cs : List Char) :
    unescapeAll (escape c ++ cs) = c :: unescapeAll cs := by
  unfold escape
  split <;> try rfl
  next h₁ h₂ h₃ h₄ h₅ =>
    rw [List.singleton_append, unescapeAll.eq_def]
    split
    · next h => simp_all
    · next h => simp_all
    · next h => simp_all

@[simp] theorem unescapeAll_escapeAll (cs : List Char) : unescapeAll (escapeAll cs) = cs := by
  induction cs with
  | nil => rfl
  | cons c cs ih =>
    rw [escapeAll, List.flatMap_cons, unescapeAll_escape_append]
    exact congrArg (c :: ·) ih

/-! ### Positions -/

/-- How many bytes characters take. -/
def byteSize : List Char → Nat
  | [] => 0
  | c :: cs => c.utf8Size + byteSize cs

/-- A line and a column, both counted from one; columns count bytes. -/
structure Position where
  line : Nat
  column : Nat
deriving DecidableEq

/-- The offsets at which the lines after the first one start. -/
def lineStarts (offset : Nat) : List Char → List Nat
  | [] => []
  | c :: cs =>
    if c = '\n' then (offset + 1) :: lineStarts (offset + 1) cs
    else lineStarts (offset + c.utf8Size) cs

/-- Looks an offset up in the ascending starts of lines: it is in the line before the first one that
starts behind it. -/
def position (cs : List Char) (offset : Nat) : Position :=
  let starts := 0 :: lineStarts 0 cs
  let line := starts.findIdx (offset < ·)
  ⟨max line 1, offset - starts[line - 1]?.getD 0 + 1⟩

end FlowGraph.Text

namespace FlowGraph

/-! ### Reading -/

/-- A value, and what is left of the list it was read from, which is shorter. -/
structure Parsed {τ : Type} (α : Type) (xs : List τ) where
  value : α
  rest : List τ
  shorter : rest.length < xs.length

namespace Parsed

variable {τ α β : Type}

def map {xs : List τ} (f : α → β) (p : Parsed α xs) : Parsed β xs := ⟨f p.value, p.rest, p.shorter⟩

/-- What was read off the end of a list was read off the list. -/
def widen {xs ys : List τ} (p : Parsed α ys) (h : ys.length ≤ xs.length) : Parsed α xs :=
  ⟨p.value, p.rest, Nat.lt_of_lt_of_le p.shorter h⟩

/-- What is read after `p`. -/
def after {xs : List τ} (p : Parsed α xs) (q : Parsed β p.rest) : Parsed β xs :=
  q.widen (Nat.le_of_lt p.shorter)

end Parsed
end FlowGraph
