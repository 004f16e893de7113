import FlowGraph.Script.Printer
import FlowGraph.Proofs.ShortestDecimal

/-! Numbers in scripts. The text of a number is read as the same number: equal in all bits, but for
the sign of zero and for what a NaN carries. -/
namespace FlowGraph

/-- The number itself, with one zero and one NaN. -/
def Number.canonical (x : Number) : Number :=
  if x.isNaN then .nan else if x.isZero then .zero else x

theorem Number.canonical_eq_self {x : Number} (hnan : x.isNaN = false) (hzero : x.isZero = false) :
    x.canonical = x := by
  simp [canonical, hnan, hzero]

theorem Number.isNaN_canonical (x : Number) : x.canonical.isNaN = x.isNaN := by
  unfold canonical
  split
  · next h => rw [h]; decide
  · next h =>
    rw [Bool.eq_false_iff.2 h]
    split
    · decide
    · exact Bool.eq_false_iff.2 h

theorem Number.isZero_canonical (x : Number) : x.canonical.isZero = x.isZero := by
  unfold canonical
  split
  · next h =>
    have hlt : infiniteMagnitude < x.magnitude := of_decide_eq_true h
    have hzero : x.isZero = false := decide_eq_false (Nat.ne_of_gt (Nat.zero_lt_of_lt hlt))
    rw [hzero]
    decide
  · split
    · next h => rw [h]; decide
    · rfl

/-- Numbers have one canonical form when they are equal in value, or when neither is a number. -/
theorem Number.canonical_eq_iff {x y : Number} : x.canonical = y.canonical ↔
    x.sameValue y = true ∨ x.isNaN = true ∧ y.isNaN = true := by
  constructor
  · intro h
    have hnan := congrArg isNaN h
    have hzero := congrArg isZero h
    rw [isNaN_canonical, isNaN_canonical] at hnan
    rw [isZero_canonical, isZero_canonical] at hzero
    cases hx : x.isNaN with
    | true => exact .inr ⟨rfl, hnan ▸ hx⟩
    | false =>
      rw [hx] at hnan
      cases hz : x.isZero with
      | true => exact .inl (by simp [sameValue, hx, hz, ← hnan, ← hzero])
      | false =>
        rw [canonical_eq_self hx hz, canonical_eq_self hnan.symm (hzero ▸ hz)] at h
        exact .inl (by simp [sameValue, ← h, hx])
  · rintro (h | ⟨hx, hy⟩)
    · simp only [sameValue, Bool.and_eq_true, Bool.or_eq_true, Bool.not_eq_true', beq_iff_eq] at h
      obtain ⟨⟨hx, hy⟩, rfl | ⟨hzx, hzy⟩⟩ := h
      · rfl
      · simp [canonical, *]
    · simp [canonical, hx, hy]

theorem Number.canonical_canonical (x : Number) : x.canonical.canonical = x.canonical := by
  cases hnan : x.isNaN with
  | true => exact Number.canonical_eq_iff.2 (.inr ⟨by rw [isNaN_canonical, hnan], hnan⟩)
  | false =>
    cases hzero : x.isZero with
    | true =>
      refine Number.canonical_eq_iff.2 (.inl ?_)
      simp [sameValue, isNaN_canonical, isZero_canonical, hnan, hzero]
    | false => rw [canonical_eq_self hnan hzero, canonical_eq_self hnan hzero]

theorem Number.sameValue_iff {x y : Number} :
    x.sameValue y = true ↔ x.canonical = y.canonical ∧ x.isNaN = false := by
  rw [canonical_eq_iff]
  constructor
  · intro h
    refine ⟨.inl h, ?_⟩
    simp only [sameValue, Bool.and_eq_true, Bool.not_eq_true'] at h
    exact h.1.1
  · rintro ⟨h | ⟨h, -⟩, hnan⟩
    · exact h
    · rw [hnan] at h
      cases h

theorem Number.canonical_sameValue (x y : Number) : x.canonical.sameValue y = x.sameValue y := by
  rw [Bool.eq_iff_iff, sameValue_iff, sameValue_iff, canonical_canonical, isNaN_canonical]

theorem Number.isNaN_of_isFinite {x : Number} (h : x.isFinite = true) : x.isNaN = false :=
  decide_eq_false (Nat.lt_asymm (of_decide_eq_true h))

theorem Number.unitsPerOne_eq : unitsPerOne = 2 ^ 1074 := by decide +kernel

theorem Number.unitsPerOne_pos : 0 < unitsPerOne := by decide +kernel

theorem Number.ofNat_zero : ofNat 0 = zero := by decide +kernel

theorem Number.isWhole_of_isZero {x : Number} (h : x.isZero = true) : x.isWhole = true := by
  have hmagnitude : x.magnitude = 0 := of_decide_eq_true h
  have hunits : x.units = 0 := by
    rw [units, hmagnitude]
    decide
  rw [isWhole, isFinite, hunits, hmagnitude, Nat.zero_mod]
  decide

namespace Script

open Decimal

/-- What can stand behind a number or a word without being taken for a part of it. -/
def Delimited (rest : List Char) : Prop := ∀ c ∈ rest.head?, isWordChar c = false ∧ c ≠ '.'

theorem Delimited.isDigit {rest : List Char} (h : Delimited rest) {c : Char} (hc : c ∈ rest.head?) :
    isDigit c = false := by
  have hword := (h c hc).1
  rw [isWordChar, Bool.or_eq_false_iff] at hword
  exact hword.2

/-- Digits, or digits with a point between them, and the decimal that they stand for. -/
inductive Numeral : List Char → Decimal → Prop
  | whole {ds : List Char} (some : ds ≠ []) (digits : ∀ c ∈ ds, isDigit c = true) :
      Numeral ds (.ofDigits ds [] 0)
  | fraction {ds fs : List Char} (some : ds ≠ []) (digits : ∀ c ∈ ds, isDigit c = true)
      (someMore : fs ≠ []) (moreDigits : ∀ c ∈ fs, isDigit c = true) :
      Numeral (ds ++ '.' :: fs) (.ofDigits ds fs 0)

theorem takeWhile_append {p : Char → Bool} {front rest : List Char}
    (hfront : ∀ c ∈ front, p c = true) (hrest : ∀ c ∈ rest.head?, p c = false) :
    (front ++ rest).takeWhile p = front := by
  rw [List.takeWhile_append_of_pos hfront]
  cases rest with
  | nil => simp
  | cons c cs => simp [hrest c rfl]

theorem Delimited.exponentPart {rest : List Char} (h : Delimited rest) :
    exponentPart rest = (0, 0) := by
  cases rest with
  | nil => rfl
  | cons c cs =>
    have hword := (h c rfl).1
    have he : c ≠ 'e' := by
      rintro rfl
      exact absurd hword (by decide)
    have hE : c ≠ 'E' := by
      rintro rfl
      exact absurd hword (by decide)
    simp [Script.exponentPart, he, hE]

theorem Delimited.fractionDigits {rest : List Char} (h : Delimited rest) :
    fractionDigits rest = [] := by
  unfold Script.fractionDigits
  split
  · exact absurd rfl (h '.' rfl).2
  · rfl

theorem unsignedNumber_numeral {cs rest : List Char} {d : Decimal} (hcs : Numeral cs d)
    (hrest : Delimited rest) (negative : Bool) :
    unsignedNumber negative (cs ++ rest) = (toNumber negative d, cs.length) := by
  have hexponent := hrest.exponentPart
  cases hcs with
  | whole some digits =>
    have htake := takeWhile_append digits fun c hc => hrest.isDigit hc
    simp [unsignedNumber, htake, hrest.fractionDigits, hexponent]
  | @fraction ds fs some digits someMore moreDigits =>
    have htake : (ds ++ '.' :: (fs ++ rest)).takeWhile isDigit = ds :=
      takeWhile_append digits (by simp [isDigit])
    have hfraction : fractionDigits ('.' :: (fs ++ rest)) = fs :=
      takeWhile_append moreDigits fun c hc => hrest.isDigit hc
    have hempty : fs.isEmpty = false := by simpa using someMore
    have hdrop : ('.' :: (fs ++ rest)).drop (fs.length + 1) = rest := by simp
    simp only [unsignedNumber, List.append_assoc, List.cons_append, htake, List.drop_left,
      hfraction, hempty, Bool.false_eq_true, if_false, hdrop, hexponent, List.length_append,
        List.length_cons, Nat.add_zero]

/-! ### Decimals written out -/

theorem isDigit_of_isDigit {c : Char} (h : c.isDigit = true) : isDigit c = true := by
  simp only [Char.isDigit, Bool.and_eq_true, decide_eq_true_eq] at h
  simp only [isDigit, Bool.and_eq_true, decide_eq_true_eq]
  exact h

theorem isDigit_toDigits {n : Nat} {c : Char} (hc : c ∈ Nat.toDigits 10 n) : isDigit c = true :=
  isDigit_of_isDigit (Nat.isDigit_of_mem_toDigits (by decide) (by decide) hc)

theorem toNumber_mul_pow {digits places : Nat} (hplaces : places ≤ 400) (negative : Bool) :
    toNumber negative ⟨digits * 10 ^ places, 0⟩ = toNumber negative ⟨digits, places⟩ := by
  by_cases hdigits : digits = 0
  · simp [toNumber, hdigits]
  have hmul : digits * 10 ^ places ≠ 0 := Nat.mul_ne_zero hdigits (Nat.pow_pos (by decide)).ne'
  have hbig : ¬(400 : Int) < (places : Int) := by omega
  have hsmall : ¬(places : Int) + (width digits : Int) < -400 := by omega
  have hsmall' : ¬(0 : Int) + (width (digits * 10 ^ places) : Int) < -400 := by omega
  have hneg : ¬(places : Int) < 0 := by omega
  simp only [toNumber, if_neg hdigits, if_neg hmul, if_neg hbig, if_neg hsmall, if_neg hsmall',
    if_neg hneg]
  simp

theorem isDigit_of_mem_replicate {k : Nat} {c : Char} (hc : c ∈ List.replicate k '0') :
    isDigit c = true := by
  rw [List.eq_of_mem_replicate hc]
  decide

/-- Zeros behind the digits. -/
theorem numeral_shifted (n places : Nat) :
    Numeral (Nat.toDigits 10 n ++ List.replicate places '0') ⟨n * 10 ^ places, 0⟩ := by
  have hdigits : ∀ c ∈ Nat.toDigits 10 n ++ List.replicate places '0', isDigit c = true :=
    fun c hc =>
    (List.mem_append.1 hc).elim isDigit_toDigits isDigit_of_mem_replicate
  have hread : Decimal.ofDigits (Nat.toDigits 10 n ++ List.replicate places '0') [] 0 =
      ⟨n * 10 ^ places, 0⟩ := by
    simp [Decimal.ofDigits, Nat.ofDigitChars_append, Nat.ofDigitChars_replicate_zero, Nat.mul_comm]
  exact hread ▸ .whole (by simp [Nat.toDigits_ne_nil]) hdigits

theorem numeral_toDigits (n : Nat) : Numeral (Nat.toDigits 10 n) ⟨n, 0⟩ := by
  simpa using numeral_shifted n 0

/-- The point between two digits. -/
theorem numeral_split {n places : Nat} (hsome : 0 < places)
    (hshort : places < (Nat.toDigits 10 n).length) :
    Numeral ((Nat.toDigits 10 n).take ((Nat.toDigits 10 n).length - places) ++
      '.' :: (Nat.toDigits 10 n).drop ((Nat.toDigits 10 n).length - places)) ⟨n, -places⟩ := by
  have hwhole : (Nat.toDigits 10 n).take ((Nat.toDigits 10 n).length - places) ≠ [] := by
    rw [← List.length_pos_iff, List.length_take]
    omega
  have hfraction : (Nat.toDigits 10 n).drop ((Nat.toDigits 10 n).length - places) ≠ [] := by
    rw [← List.length_pos_iff, List.length_drop]
    omega
  have hread : Decimal.ofDigits ((Nat.toDigits 10 n).take ((Nat.toDigits 10 n).length - places))
      ((Nat.toDigits 10 n).drop ((Nat.toDigits 10 n).length - places)) 0 = ⟨n, -places⟩ := by
    simp only [Decimal.ofDigits, List.take_append_drop, Nat.ofDigitChars_ten_toDigits,
      List.length_drop, Decimal.mk.injEq, true_and]
    omega
  exact hread ▸ .fraction hwhole (fun c hc => isDigit_toDigits (List.mem_of_mem_take hc)) hfraction
    fun c hc => isDigit_toDigits (List.mem_of_mem_drop hc)

/-- Zeros between the point and the digits. -/
theorem numeral_leading {n places : Nat} (hlong : (Nat.toDigits 10 n).length ≤ places) :
    Numeral ('0' :: '.' ::
      (List.replicate (places - (Nat.toDigits 10 n).length) '0' ++ Nat.toDigits 10 n))
      ⟨n, -places⟩ := by
  have hdigits :
      ∀ c ∈ List.replicate (places - (Nat.toDigits 10 n).length) '0' ++ Nat.toDigits 10 n,
      isDigit c = true := fun c hc =>
    (List.mem_append.1 hc).elim isDigit_of_mem_replicate isDigit_toDigits
  have hlead : ∀ c ∈ ['0'], isDigit c = true := fun c => isDigit_of_mem_replicate (k := 1)
  have hread : Decimal.ofDigits ['0']
      (List.replicate (places - (Nat.toDigits 10 n).length) '0' ++ Nat.toDigits 10 n) 0 =
        ⟨n, -places⟩ := by
    have hnone : Nat.ofDigitChars 10 ['0'] 0 = 0 := by decide
    simp only [Decimal.ofDigits, Nat.ofDigitChars_append, hnone, Nat.ofDigitChars_replicate_zero,
      Nat.mul_zero, Nat.ofDigitChars_ten_toDigits, List.length_append, List.length_replicate,
        Decimal.mk.injEq, true_and]
    omega
  exact hread ▸ .fraction (List.cons_ne_nil _ _) hlead (by simp [Nat.toDigits_ne_nil]) hdigits

/-- A decimal written out in full stands for the same number. -/
theorem numeral_positional {d : Decimal} (hexponent : d.exponent ≤ 400) :
    ∃ e, Numeral d.positional e ∧ ∀ negative, toNumber negative e = toNumber negative d := by
  obtain ⟨digits, exponent⟩ := d
  have hle : exponent ≤ 400 := hexponent
  simp only [positional]
  by_cases hnonneg : 0 ≤ exponent
  · have hplaces : (exponent.natAbs : Int) = exponent := by omega
    rw [if_pos hnonneg]
    refine ⟨_, numeral_shifted digits exponent.natAbs, fun negative => ?_⟩
    rw [toNumber_mul_pow (by omega), hplaces]
  · have hplaces : -(exponent.natAbs : Int) = exponent := by omega
    rw [if_neg hnonneg]
    refine ⟨⟨digits, -exponent.natAbs⟩, ?_, fun negative => by rw [hplaces]⟩
    split
    · next hshort => exact numeral_split (by omega) hshort
    · next hlong => exact numeral_leading (Nat.not_lt.1 hlong)

end Script

namespace Number

open Decimal

/-! ### Whole numbers -/

theorem mul_wholePart {x : Number} (hwhole : x.isWhole = true) :
    x.wholePart * unitsPerOne = x.units := by
  simp only [isWhole, Bool.and_eq_true, beq_iff_eq] at hwhole
  exact Nat.div_mul_cancel (Nat.dvd_of_mod_eq_zero hwhole.2)

theorem units_eq_zero_iff {x : Number} : x.units = 0 ↔ x.isZero = true := by
  rw [isZero, decide_eq_true_eq]
  refine ⟨fun h => Nat.eq_zero_of_not_pos fun hpos => ?_, fun h => ?_⟩
  · exact absurd h (Nat.ne_of_gt (unitsOf_pos hpos))
  · rw [units, h]
    decide

theorem wholePart_eq_zero_iff {x : Number} (hwhole : x.isWhole = true) :
    x.wholePart = 0 ↔ x.isZero = true := by
  rw [← units_eq_zero_iff, ← mul_wholePart hwhole, Nat.mul_eq_zero,
    or_iff_left (Nat.ne_of_gt unitsPerOne_pos)]

theorem toNumber_wholePart {x : Number} (hwhole : x.isWhole = true) (hzero : x.isZero = false) :
    toNumber x.negative ⟨x.wholePart, 0⟩ = x := by
  have hpos : 0 < x.magnitude := by
    rw [isZero, decide_eq_false_iff_not] at hzero
    omega
  have hfinite : x.magnitude < infiniteMagnitude := by
    rw [isWhole, Bool.and_eq_true] at hwhole
    exact of_decide_eq_true hwhole.1
  have hvalue : 2 * (x.wholePart * unitsPerOne) = (Interval.around x.magnitude).value * 1 := by
    rw [mul_wholePart hwhole, Nat.mul_one]
    rfl
  have hholds := Interval.holds_value hpos (d := 1) (by decide)
  rw [← hvalue] at hholds
  have hread : toNumber x.negative ⟨x.wholePart, 0⟩ = ofMagnitude x.negative x.magnitude :=
    toNumber_of_holds hpos hfinite x.negative (by decide) (fun h => absurd h (by decide))
      fun _ => by
      simpa using hholds
  rw [hread, ofMagnitude_eq]

theorem toNumber_ofNat (n : Nat) : toNumber false ⟨n, 0⟩ = ofNat n := by
  by_cases hn : n = 0
  · rw [hn, ofNat_zero]
    rfl
  · simp [toNumber, hn, ofNat]

/-- Below 2^53 every whole number is a number, with all its bits. -/
theorem exists_unitsOf {n : Nat} (hpos : 0 < n) (hn : n < 2 ^ 53) :
    ∃ m, 0 < m ∧ m < infiniteMagnitude ∧ unitsOf m = n * unitsPerOne := by
  obtain ⟨b, hb⟩ : ∃ b, n.log2 = b := ⟨_, rfl⟩
  have hne : n ≠ 0 := by omega
  have hb52 : b ≤ 52 := by
    have := (Nat.log2_lt hne).2 hn
    omega
  have hlow : 2 ^ b ≤ n := (Nat.le_log2 hne).1 (Nat.le_of_eq hb.symm)
  have hhigh : n < 2 ^ (b + 1) := (Nat.log2_lt hne).1 (by omega)
  have hsplit : 2 ^ b * 2 ^ (52 - b) = exponentWeight := by
    rw [← Nat.pow_add, Nat.add_sub_cancel' hb52, exponentWeight_eq]
  have hsig_low : exponentWeight ≤ n * 2 ^ (52 - b) := hsplit ▸ Nat.mul_le_mul_right _ hlow
  have hsig_high : n * 2 ^ (52 - b) < 2 * exponentWeight := by
    rw [← hsplit, ← Nat.mul_assoc, ← Nat.pow_add_one']
    exact Nat.mul_lt_mul_of_pos_right hhigh (Nat.two_pow_pos _)
  have hunits : unitsPerOne = 2 ^ (52 - b + (b + 1022)) := by
    rw [show 52 - b + (b + 1022) = 1074 by omega, unitsPerOne_eq]
  have hweight : 0 < exponentWeight := by decide
  refine ⟨(b + 1022) * exponentWeight + n * 2 ^ (52 - b), by omega, ?_, ?_⟩
  · have hexponent : (b + 1022) * exponentWeight ≤ 1074 * exponentWeight :=
      Nat.mul_le_mul_right _ (by omega)
    rw [infiniteMagnitude]
    omega
  · rw [unitsOf_split (.inr hsig_low) (Nat.le_of_lt hsig_high), hunits, Nat.mul_assoc,
      ← Nat.pow_add]

theorem magnitude_ofMagnitude {m : Nat} (hm : m < signWeight) :
    (ofMagnitude false m).magnitude = m ∧ (ofMagnitude false m).negative = false := by
  have hsize : UInt64.size = 2 * signWeight := by decide
  have hbits : (ofMagnitude false m).bits.toNat = m := by
    simp only [ofMagnitude, Bool.false_eq_true, if_false, Nat.zero_add]
    exact UInt64.toNat_ofNat_of_lt (by omega)
  rw [magnitude, negative, hbits]
  exact ⟨Nat.mod_eq_of_lt hm, decide_eq_false (by omega)⟩

theorem units_ofNat {n : Nat} (hn : n < 2 ^ 53) : (ofNat n).units = n * unitsPerOne ∧
    (ofNat n).isFinite = true ∧ (ofNat n).negative = false := by
  rcases Nat.eq_zero_or_pos n with rfl | hpos
  · rw [ofNat_zero, Nat.zero_mul]
    decide
  · obtain ⟨m, hm, hfinite, hunits⟩ := exists_unitsOf hpos hn
    have hvalue : 2 * (n * unitsPerOne) = (Interval.around m).value * 1 := by
      rw [← hunits, Nat.mul_one]
      rfl
    have hholds := Interval.holds_value hm (d := 1) (by decide)
    rw [← hvalue] at hholds
    have hnearest : ofNat n = ofMagnitude false m := by
      rw [ofNat, ofRatio, Interval.nearestMagnitude_eq (by decide) hm hfinite hholds]
    have hsign : infiniteMagnitude < signWeight := by decide
    obtain ⟨hmagnitude, hnegative⟩ := magnitude_ofMagnitude (Nat.lt_trans hfinite hsign)
    rw [hnearest, units, isFinite, hmagnitude, hnegative]
    exact ⟨hunits, decide_eq_true hfinite, rfl⟩

theorem isWhole_ofNat {n : Nat} (hn : n < 2 ^ 53) :
    (ofNat n).isWhole = true ∧ (ofNat n).wholePart = n ∧ (ofNat n).negative = false := by
  obtain ⟨hunits, hfinite, hnegative⟩ := units_ofNat hn
  rw [isWhole, wholePart, hunits, hfinite, Nat.mul_mod_left, Nat.mul_div_cancel _ unitsPerOne_pos]
  exact ⟨rfl, rfl, hnegative⟩

end Number

/-! ### The texts of numbers -/

namespace Script

open Decimal

/-- The characters of a number in a layout, and the number that they stand for. -/
inductive Spelled (layout : Number.Layout) : List Char → Number → Prop
  | nan : Spelled layout layout.nan.toList .nan
  | infinite : Spelled layout layout.infinite.toList (.infinity false)
  | minusInfinite : Spelled layout ('-' :: layout.infinite.toList) (.infinity true)
  | unsigned {cs : List Char} {d : Decimal} (numeral : Numeral cs d) :
      Spelled layout cs (toNumber false d)
  | negative {cs : List Char} {d : Decimal} (numeral : Numeral cs d) :
      Spelled layout ('-' :: cs) (toNumber true d)

section Layout

variable {layout : Number.Layout}

theorem spelled_signed {cs : List Char} {d : Decimal} (hcs : Numeral cs d) (negative : Bool) :
    Spelled layout (if negative then '-' :: cs else cs) (toNumber negative d) := by
  cases negative with
  | false => exact .unsigned hcs
  | true => exact .negative hcs

theorem spelled_repr (n : Nat) : Spelled layout (Nat.repr n).toList (.ofNat n) := by
  rw [Nat.repr_eq_ofList_toDigits, String.toList_ofList, ← Number.toNumber_ofNat]
  exact .unsigned (numeral_toDigits n)

theorem spelled_whole {x : Number} (hwhole : x.isWhole = true) :
    Spelled layout (if x.negative && x.wholePart != 0 then "-" ++ Nat.repr x.wholePart
      else Nat.repr x.wholePart).toList x.canonical := by
  have hnan := Number.isNaN_of_isFinite ((Bool.and_eq_true _ _).mp hwhole).1
  cases hzero : x.isZero with
  | true =>
    have hpart := (Number.wholePart_eq_zero_iff hwhole).2 hzero
    have hcanonical : x.canonical = .zero := by simp [Number.canonical, hnan, hzero]
    rw [hpart, hcanonical, ← Number.ofNat_zero, if_neg (by simp)]
    exact spelled_repr 0
  | false =>
    have hpart : x.wholePart ≠ 0 := fun h => by
      rw [(Number.wholePart_eq_zero_iff hwhole).1 h] at hzero
      cases hzero
    have hread : Spelled layout _ _ := spelled_signed (numeral_toDigits x.wholePart) x.negative
    rw [Number.toNumber_wholePart hwhole hzero] at hread
    rw [Number.canonical_eq_self hnan hzero]
    cases hsign : x.negative <;> simpa [hsign, hpart, Nat.repr_eq_ofList_toDigits] using hread

theorem spelled_plain {x : Number} (hzero : x.isZero = false) :
    Spelled layout (x.toPlain layout).toList x.canonical := by
  unfold Number.toPlain
  cases hnan : x.isNaN with
  | true =>
    rw [Number.canonical, if_pos hnan, if_pos rfl]
    exact .nan
  | false =>
    rw [Number.canonical_eq_self hnan hzero]
    cases hfinite : x.isFinite with
    | true =>
      obtain ⟨hshortest, hexponent⟩ := toNumber_shortest hfinite hzero .up
      obtain ⟨d, hd, hvalue⟩ := numeral_positional hexponent
      have hread : Spelled layout _ _ := spelled_signed hd x.negative
      rw [hvalue, hshortest] at hread
      cases hsign : x.negative <;> simpa [hsign] using hread
    | false =>
      have hinfinite : x.magnitude = Number.infiniteMagnitude := by
        have hle := of_decide_eq_false hfinite
        have hge := of_decide_eq_false hnan
        omega
      have hx : x = .infinity x.negative := by
        rw [Number.infinity, ← hinfinite, Number.ofMagnitude_eq]
      cases hsign : x.negative with
      | false =>
        rw [hsign] at hx
        simpa [← hx] using (Spelled.infinite : Spelled layout _ _)
      | true =>
        rw [hsign] at hx
        simpa [← hx] using (Spelled.minusInfinite : Spelled layout _ _)

/-- The text of a number stands for the number, in every layout. -/
theorem spelled_toText (layout : Number.Layout) (x : Number) :
    Spelled layout (x.toText layout).toList x.canonical := by
  unfold Number.toText
  split
  · next hsmall => exact spelled_whole ((Bool.and_eq_true _ _).mp hsmall).1
  · next hsmall =>
    refine spelled_plain (Bool.eq_false_iff.2 fun hzero => hsmall ?_)
    have hwhole := Number.isWhole_of_isZero hzero
    rw [hwhole, (Number.wholePart_eq_zero_iff hwhole).2 hzero]
    rfl

end Layout

inductive NumberChars : List Char → Number → Prop
  | nan : NumberChars ['n', 'a', 'n'] .nan
  | infinite : NumberChars ['i', 'n', 'f'] (.infinity false)
  | minusInfinite : NumberChars ['-', 'i', 'n', 'f'] (.infinity true)
  | unsigned {cs : List Char} {d : Decimal} (numeral : Numeral cs d) :
      NumberChars cs (toNumber false d)
  | negative {cs : List Char} {d : Decimal} (numeral : Numeral cs d) :
      NumberChars ('-' :: cs) (toNumber true d)

theorem Spelled.numberChars {cs : List Char} {x : Number} (h : Spelled Number.scriptLayout cs x) :
    NumberChars cs x := by
  cases h with
  | nan => exact .nan
  | infinite => exact .infinite
  | minusInfinite => exact .minusInfinite
  | unsigned numeral => exact .unsigned numeral
  | negative numeral => exact .negative numeral

theorem numberChars_repr (n : Nat) : NumberChars (Nat.repr n).toList (.ofNat n) :=
  (spelled_repr n).numberChars

/-- The text of a number stands for the number. -/
theorem numberChars_numberText (x : Number) : NumberChars (numberText x).toList x.canonical :=
  (spelled_toText _ x).numberChars

end Script
end FlowGraph
