import Mathlib.Data.List.DropRight
import FlowGraph.Text.Basic

/-! Lines and columns, byte by byte. The position behind some bytes of a text is counted in those
bytes alone: the ends of lines in them give its line, and the bytes behind the last one its column.
One byte more gives a later position. -/
namespace FlowGraph.Text

/-! ### Bytes -/

def bytes (cs : List Char) : List UInt8 := cs.flatMap String.utf8EncodeChar

def newline : UInt8 := 0x0a

theorem bytes_append (cs ds : List Char) : bytes (cs ++ ds) = bytes cs ++ bytes ds :=
  List.flatMap_append

theorem bytes_toList (source : String) : bytes source.toList = source.toByteArray.data.toList := by
  rw [← String.utf8Encode_toList, List.utf8Encode, List.data_toByteArray, bytes]

theorem length_bytes (cs : List Char) : (bytes cs).length = byteSize cs := by
  induction cs with
  | nil => rfl
  | cons c cs ih =>
    rw [bytes, List.flatMap_cons, List.length_append, String.length_utf8EncodeChar,
      byteSize, ← ih, bytes]

theorem byteSize_append (cs ds : List Char) : byteSize (cs ++ ds) = byteSize cs + byteSize ds := by
  rw [← length_bytes, bytes_append, List.length_append, length_bytes, length_bytes]

theorem byteSize_toList (source : String) : byteSize source.toList = source.utf8ByteSize := by
  rw [← length_bytes, bytes_toList]
  rfl

theorem newline_eq_ofNat_iff {k : Nat} (h : k < 256) : newline = UInt8.ofNat k ↔ k = 10 := by
  rw [← UInt8.toNat_inj, UInt8.toNat_ofNat', Nat.mod_eq_of_lt h]
  exact eq_comm

/-- The byte that ends a line is part of no other character. -/
theorem newline_mem_encode_iff {c : Char} : newline ∈ String.utf8EncodeChar c ↔ c = '\n' := by
  have hchar : c = '\n' ↔ c.val.toNat = 10 :=
    ⟨fun h => h ▸ rfl, fun h => Char.ext (UInt32.toNat_inj.1 h)⟩
  rw [hchar, String.utf8EncodeChar]
  split_ifs <;>
    simp (disch := omega) only [List.mem_cons, List.not_mem_nil, or_false,
      newline_eq_ofNat_iff] <;> omega

theorem count_newline_bytes (cs : List Char) : (bytes cs).count newline = cs.count '\n' := by
  induction cs with
  | nil => rfl
  | cons c cs ih =>
    rw [bytes, List.flatMap_cons, List.count_append, ← bytes, ih, Nat.add_comm, List.count_cons]
    by_cases hc : c = '\n'
    · subst hc
      rfl
    · rw [List.count_eq_zero_of_not_mem (mt newline_mem_encode_iff.1 hc),
        if_neg (by simpa using hc)]

/-! ### Starts of lines -/

/-- The offsets behind the ends of lines in bytes that stand at `offset`. -/
def startsIn (offset : Nat) : List UInt8 → List Nat
  | [] => []
  | b :: bs =>
    if b = newline then (offset + 1) :: startsIn (offset + 1) bs else startsIn (offset + 1) bs

theorem startsIn_append (offset : Nat) (xs ys : List UInt8) :
    startsIn offset (xs ++ ys) = startsIn offset xs ++ startsIn (offset + xs.length) ys := by
  induction xs generalizing offset with
  | nil => rfl
  | cons x xs ih =>
    have hnext : offset + 1 + xs.length = offset + (x :: xs).length := by
      rw [List.length_cons]; omega
    rw [List.cons_append, startsIn, startsIn, ih, hnext]
    split <;> rfl

theorem startsIn_eq_nil {xs : List UInt8} (h : newline ∉ xs) (offset : Nat) :
    startsIn offset xs = [] := by
  induction xs generalizing offset with
  | nil => rfl
  | cons x xs ih =>
    rw [List.mem_cons, not_or] at h
    rw [startsIn, if_neg (Ne.symm h.1), ih h.2]

theorem length_startsIn (offset : Nat) (xs : List UInt8) :
    (startsIn offset xs).length = xs.count newline := by
  induction xs generalizing offset with
  | nil => rfl
  | cons x xs ih => by_cases hx : x = newline <;> simp [startsIn, hx, ih]

theorem bounds_of_mem_startsIn {offset n : Nat} {xs : List UInt8} (h : n ∈ startsIn offset xs) :
    offset < n ∧ n ≤ offset + xs.length := by
  induction xs generalizing offset with
  | nil => cases h
  | cons x xs ih =>
    have hrest : n ∈ startsIn (offset + 1) xs → offset < n ∧ n ≤ offset + (x :: xs).length :=
      fun h => by
      have := ih h
      rw [List.length_cons]
      omega
    rw [startsIn] at h
    split at h
    · rcases List.mem_cons.1 h with rfl | h
      · rw [List.length_cons]
        omega
      · exact hrest h
    · exact hrest h

theorem pairwise_startsIn (offset : Nat) (xs : List UInt8) :
    (startsIn offset xs).Pairwise (· < ·) := by
  induction xs generalizing offset with
  | nil => exact .nil
  | cons x xs ih =>
    rw [startsIn]
    split
    · exact .cons (fun n hn => (bounds_of_mem_startsIn hn).1) (ih _)
    · exact ih _

theorem lineStarts_eq (offset : Nat) (cs : List Char) :
    lineStarts offset cs = startsIn offset (bytes cs) := by
  induction cs generalizing offset with
  | nil => rfl
  | cons c cs ih =>
    rw [bytes, List.flatMap_cons, startsIn_append, String.length_utf8EncodeChar, lineStarts,
      ih, ih, bytes]
    split
    · next hc =>
      subst hc
      rfl
    · next hc => rw [startsIn_eq_nil (mt newline_mem_encode_iff.1 hc), List.nil_append]

theorem pairwise_lineStarts (cs : List Char) : (0 :: lineStarts 0 cs).Pairwise (· < ·) := by
  rw [lineStarts_eq]
  exact .cons (fun n hn => (bounds_of_mem_startsIn hn).1) (pairwise_startsIn 0 _)

/-! ### Positions -/

/-- Up to the first start behind an offset stand all those that are not behind it. -/
theorem take_findIdx_eq_filter {starts : List Nat} (hasc : starts.Pairwise (· < ·)) (offset : Nat) :
    starts.take (starts.findIdx (offset < ·)) = starts.filter (· ≤ offset) := by
  induction hasc with
  | nil => rfl
  | @cons start starts hlater _ ih =>
    rw [List.findIdx_cons]
    by_cases hstart : offset < start
    · have hnone : (start :: starts).filter (· ≤ offset) = [] := by
        refine List.filter_eq_nil_iff.2 fun n hn => ?_
        simp only [decide_eq_true_eq]
        rcases List.mem_cons.1 hn with rfl | hn
        · omega
        · have := hlater n hn
          omega
      simp [hstart, hnone]
    · have hfirst : start ≤ offset := Nat.not_lt.1 hstart
      simp [hstart, hfirst, ih]

theorem findIdx_eq_countP {starts : List Nat} (hasc : starts.Pairwise (· < ·)) (offset : Nat) :
    starts.findIdx (offset < ·) = starts.countP (· ≤ offset) := by
  rw [List.countP_eq_length_filter, ← take_findIdx_eq_filter hasc, List.length_take,
    Nat.min_eq_left List.findIdx_le_length]

/-- The line is the number of lines that start up to the offset, and the column counts from the last
of them. -/
theorem position_eq_count (cs : List Char) (offset : Nat) : position cs offset =
    ⟨(0 :: lineStarts 0 cs).countP (· ≤ offset),
      offset - ((0 :: lineStarts 0 cs).filter (· ≤ offset)).getLast?.getD 0 + 1⟩ := by
  have hasc := pairwise_lineStarts cs
  have hpos : 0 < (0 :: lineStarts 0 cs).countP (· ≤ offset) :=
    List.countP_pos_iff.2 ⟨0, List.mem_cons_self, by simp⟩
  have hle : (0 :: lineStarts 0 cs).countP (· ≤ offset) ≤ (0 :: lineStarts 0 cs).length :=
    List.countP_le_length
  rw [position, ← take_findIdx_eq_filter hasc, findIdx_eq_countP hasc, Nat.max_eq_left hpos,
    List.getLast?_take, if_neg (Nat.ne_of_gt hpos)]
  rw [List.getElem?_eq_getElem (by omega), Option.some_or]

/-- The position behind bytes that a text starts with. -/
def behind (bs : List UInt8) : Position :=
  ⟨1 + bs.count newline, 1 + (bs.rtakeWhile (· != newline)).length⟩

/-- The last line in some bytes starts where the bytes behind the last end of a line do. -/
theorem getLast?_startsIn (bs : List UInt8) :
    (0 :: startsIn 0 bs).getLast?.getD 0 + (bs.rtakeWhile (· != newline)).length = bs.length := by
  induction bs using List.reverseRecOn with
  | nil => rfl
  | append_singleton bs b ih =>
    rw [startsIn_append, ← List.cons_append, List.rtakeWhile_concat, List.length_append,
      List.length_singleton]
    by_cases hb : b = newline
    · have hstart : startsIn (0 + bs.length) [b] = [bs.length + 1] := by simp [startsIn, hb]
      rw [hstart, List.getLast?_concat, if_neg (by simp [hb])]
      rfl
    · simp only [startsIn, hb, List.append_nil, bne_iff_ne, ne_eq, not_false_eq_true,
        if_true, if_false, List.length_append, List.length_singleton]
      omega

theorem position_eq_behind {cs : List Char} {offset : Nat} (h : offset ≤ byteSize cs) :
    position cs offset = behind ((bytes cs).take offset) := by
  obtain ⟨xs, ys, hsplit, rfl⟩ : ∃ xs ys, bytes cs = xs ++ ys ∧ xs.length = offset := by
    refine ⟨(bytes cs).take offset, (bytes cs).drop offset, (List.take_append_drop _ _).symm, ?_⟩
    rw [List.length_take, length_bytes, Nat.min_eq_left h]
  have hbefore : (startsIn 0 xs).filter (· ≤ xs.length) = startsIn 0 xs := by
    refine List.filter_eq_self.2 fun n hn => ?_
    have := bounds_of_mem_startsIn hn
    simp only [decide_eq_true_eq]
    omega
  have hbehind : (startsIn (0 + xs.length) ys).filter (· ≤ xs.length) = [] := by
    refine List.filter_eq_nil_iff.2 fun n hn => ?_
    have := bounds_of_mem_startsIn hn
    simp only [decide_eq_true_eq]
    omega
  have hstarts : (0 :: lineStarts 0 cs).filter (· ≤ xs.length) = 0 :: startsIn 0 xs := by
    rw [lineStarts_eq, hsplit, startsIn_append, List.filter_cons_of_pos (by simp),
      List.filter_append, hbefore, hbehind, List.append_nil]
  have hlast := getLast?_startsIn xs
  rw [position_eq_count, List.countP_eq_length_filter, hstarts, hsplit, List.take_left, behind,
    List.length_cons, length_startsIn]
  congr 1 <;> omega

/-- The line behind some characters is counted by the ends of lines in them. -/
theorem line_position (cs ds : List Char) :
    (position (cs ++ ds) (byteSize cs)).line = 1 + cs.count '\n' := by
  rw [position_eq_behind (by rw [byteSize_append]; omega), bytes_append, ← length_bytes,
    List.take_left, behind, count_newline_bytes]

def Position.Precedes (p q : Position) : Prop :=
  p.line < q.line ∨ p.line = q.line ∧ p.column < q.column

theorem Position.Precedes.trans {p q r : Position} (h : p.Precedes q) (h' : q.Precedes r) :
    p.Precedes r := by
  unfold Precedes at *
  omega

theorem Position.Precedes.ne {p q : Position} (h : p.Precedes q) : p ≠ q := by
  rintro rfl
  unfold Precedes at h
  omega

/-- One byte more leads to a later position. -/
theorem precedes_behind_concat (bs : List UInt8) (b : UInt8) :
    (behind bs).Precedes (behind (bs ++ [b])) := by
  by_cases hb : b = newline
  · exact .inl (by simp [behind, hb])
  · refine .inr ⟨by simp [behind, List.count_append, hb], ?_⟩
    simp [behind, hb]

theorem precedes_behind_take {bs : List UInt8} {a b : Nat} (hlt : a < b) (hb : b ≤ bs.length) :
    (behind (bs.take a)).Precedes (behind (bs.take b)) := by
  induction b with
  | zero => cases hlt
  | succ b ih =>
    have hstep := precedes_behind_concat (bs.take b) bs[b]
    rw [← List.take_succ_eq_append_getElem hb] at hstep
    rcases Nat.lt_succ_iff_lt_or_eq.1 hlt with hlt | rfl
    · exact (ih hlt (Nat.le_of_succ_le hb)).trans hstep
    · exact hstep

/-- The lines and columns of a text are those of its bytes. -/
structure Located (source : String) : Prop where
  /-- The line is counted by the ends of lines before the offset, the column by the bytes behind the
  last of them. -/
  position_eq : ∀ offset ≤ source.utf8ByteSize, position source.toList offset =
    ⟨1 + (source.toByteArray.data.toList.take offset).count newline,
      1 + ((source.toByteArray.data.toList.take offset).rtakeWhile (· != newline)).length⟩
  positive : ∀ offset ≤ source.utf8ByteSize,
    1 ≤ (position source.toList offset).line ∧ 1 ≤ (position source.toList offset).column
  ascending : ∀ a b, a < b → b ≤ source.utf8ByteSize →
    (position source.toList a).Precedes (position source.toList b)
  distinct : ∀ a ≤ source.utf8ByteSize, ∀ b ≤ source.utf8ByteSize,
    position source.toList a = position source.toList b → a = b

theorem positions_located (source : String) : Located source := by
  have hposition : ∀ offset ≤ source.utf8ByteSize, position source.toList offset =
      behind (source.toByteArray.data.toList.take offset) := fun offset h => by
    rw [position_eq_behind (byteSize_toList source ▸ h), bytes_toList]
  have hlength : source.toByteArray.data.toList.length = source.utf8ByteSize := rfl
  have hascending : ∀ a b, a < b → b ≤ source.utf8ByteSize →
      (position source.toList a).Precedes (position source.toList b) := by
    intro a b hlt hb
    rw [hposition a (Nat.le_trans (Nat.le_of_lt hlt) hb), hposition b hb]
    exact precedes_behind_take hlt (hlength ▸ hb)
  refine ⟨hposition, fun offset h => ?_, hascending, fun a ha b hb heq => ?_⟩
  · rw [hposition offset h]
    exact ⟨Nat.le_add_right _ _, Nat.le_add_right _ _⟩
  · rcases Nat.lt_trichotomy a b with hlt | rfl | hlt
    · exact absurd heq (hascending a b hlt hb).ne
    · rfl
    · exact absurd heq.symm (hascending b a hlt ha).ne

end FlowGraph.Text
