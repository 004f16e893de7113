import Mathlib.Algebra.Order.Field.Rat
import Mathlib.Tactic.Linarith
import FlowGraph.Proofs.RuleLanguage

/-! Numbers as ids and ports. A number with the value of an index is read as that index, and in
front of any other number there is a fault. Only the first number that is too large for 64 bits is
taken for the last port. -/
namespace FlowGraph

namespace Number

def value? (x : Number) : Option ℚ :=
  if x.isFinite then some ((if x.negative then -1 else 1) * x.units / unitsPerOne) else none

/-- A number with the value of a natural number is whole, and only zero may have a sign. -/
theorem value?_eq_natCast_iff {x : Number} {n : Nat} : x.value? = some (n : ℚ) ↔
    x.isWhole = true ∧ (x.negative = true → x.isZero = true) ∧ x.wholePart = n := by
  have hpos := unitsPerOne_pos
  have hone : (unitsPerOne : ℚ) ≠ 0 := Nat.cast_ne_zero.2 (Nat.ne_of_gt hpos)
  have hcount : x.isWhole = true ∧ x.wholePart = n ↔ x.isFinite = true ∧
      x.units = n * unitsPerOne := by
    constructor
    · rintro ⟨hwhole, rfl⟩
      exact ⟨(Bool.and_eq_true _ _ ▸ hwhole).1, (mul_wholePart hwhole).symm⟩
    · rintro ⟨hfinite, hunits⟩
      rw [isWhole, wholePart, hfinite, hunits, Nat.mul_mod_left, Nat.mul_div_cancel _ hpos]
      exact ⟨rfl, rfl⟩
  rw [and_left_comm, hcount, value?]
  cases hfinite : x.isFinite with
  | false => simp
  | true =>
    rw [if_pos rfl, Option.some.injEq, div_eq_iff hone]
    cases hnegative : x.negative with
    | false =>
      rw [if_neg Bool.false_ne_true, one_mul, ← Nat.cast_mul, Nat.cast_inj]
      simp
    | true =>
      -- a negative number and a natural one are equal only at zero
      rw [if_pos rfl, ← units_eq_zero_iff, ← Nat.cast_mul]
      have hunits : (0 : ℚ) ≤ x.units := Nat.cast_nonneg _
      have hindex : (0 : ℚ) ≤ (n * unitsPerOne : Nat) := Nat.cast_nonneg _
      constructor
      · intro h
        have hzero : x.units = 0 := Nat.cast_eq_zero.1 (by linarith : (x.units : ℚ) = 0)
        have hzero' : n * unitsPerOne = 0 :=
          Nat.cast_eq_zero.1 (by linarith : ((n * unitsPerOne : Nat) : ℚ) = 0)
        exact ⟨fun _ => hzero, rfl, hzero.trans hzero'.symm⟩
      · rintro ⟨hzero, -, heq⟩
        rw [← heq, hzero rfl, Nat.cast_zero, mul_zero]

end Number

namespace Script

open Rule

/-- What numbers are read as indices: those with the value of an index, and one more for the last
index. -/
theorem denotes_iff {limit n : Nat} {x : Number} (hlimit : limit ≤ UInt64.size) :
    Denotes limit x n ↔ n < limit ∧
      (x.value? = some (n : ℚ) ∨ n = UInt64.size - 1 ∧ x.value? = some (UInt64.size : ℚ)) := by
  have hpos : 0 < UInt64.size := by decide
  constructor
  · rintro ⟨hwhole, hpositive, hbounded, hn, hlt⟩
    rcases Nat.lt_or_eq_of_le hbounded with hpart | hpart
    · have hself : x.wholePart = n := by omega
      exact ⟨hlt, .inl (Number.value?_eq_natCast_iff.2 ⟨hwhole, hpositive, hself⟩)⟩
    · exact ⟨hlt, .inr ⟨by omega, Number.value?_eq_natCast_iff.2 ⟨hwhole, hpositive, hpart⟩⟩⟩
  · rintro ⟨hlt, hvalue | ⟨hn, hvalue⟩⟩
    · obtain ⟨hwhole, hpositive, hpart⟩ := Number.value?_eq_natCast_iff.1 hvalue
      exact ⟨hwhole, hpositive, by omega, by omega, hlt⟩
    · obtain ⟨hwhole, hpositive, hpart⟩ := Number.value?_eq_natCast_iff.1 hvalue
      exact ⟨hwhole, hpositive, by omega, by omega, hlt⟩

/-- A rule takes a number for an index below `limit` exactly. -/
structure TakesExactly {α : Type} (r : Rule α) (toNat : α → Nat) (limit : Nat) (x : Number) :
    Prop where
  /-- A number that is an index is read as that index. -/
  reads {l : Lexeme} (hl : l.token = .number x) {n : Nat} (hn : n < limit)
    (hx : x.value? = some (n : ℚ))
    (ls : List Lexeme) : ∃ a, toNat a = n ∧ r.run (l :: ls) = .ok ⟨a, ls, Nat.lt_succ_self _⟩
  /-- At any other number there is a fault, and the number is not passed. -/
  stops {l : Lexeme} (hl : l.token = .number x) (hx : ∀ n < limit, x.value? ≠ some (n : ℚ))
    (ls : List Lexeme) :
    ∃ message, r.run (l :: ls) = .error ⟨some l.start, message⟩

section Index

variable {α : Type} {limit : Nat} {l : Lexeme} {x : Number} (f : Nat → α) (what : String)
  (ls : List Lexeme)

theorem run_map_index_of_denotes (hl : l.token = .number x) {n : Nat} (hn : Denotes limit x n) :
    ((index limit what).map f).run (l :: ls) = .ok ⟨f n, ls, Nat.lt_succ_self _⟩ := by
  simp only [Rule.map, run_index limit what hl, indexOf_eq_ok_iff_denotes.2 hn]
  rfl

theorem run_map_index_of_not_denotes (hl : l.token = .number x) (hx : ∀ n, ¬Denotes limit x n) :
    ∃ message, ((index limit what).map f).run (l :: ls) = .error ⟨some l.start, message⟩ := by
  cases hindex : indexOf limit what x with
  | ok n => exact absurd (indexOf_eq_ok_iff_denotes.1 hindex) (hx n)
  | error message =>
    refine ⟨message, ?_⟩
    simp only [Rule.map, run_index limit what hl, hindex]
    rfl

variable {f} {toNat : α → Nat}

/-- Indices are taken exactly, but for the number behind the last index of 64 bits where that is an
index. -/
theorem takesExactly_index (hlimit : limit ≤ UInt64.size) (hf : ∀ n < limit, toNat (f n) = n)
    (hx : x.value? = some (UInt64.size : ℚ) → limit < UInt64.size) :
    TakesExactly ((index limit what).map f) toNat limit x where
  reads hl n hn hvalue ls :=
    ⟨f n, hf n hn, run_map_index_of_denotes f what ls hl ((denotes_iff hlimit).2 ⟨hn, .inl hvalue⟩)⟩
  stops hl hnone ls := by
    refine run_map_index_of_not_denotes f what ls hl fun n hn => ?_
    obtain ⟨hlt, hvalue | ⟨hlast, hvalue⟩⟩ := (denotes_iff hlimit).1 hn
    · exact hnone n hlt hvalue
    · have hless := hx hvalue
      omega

end Index

section Ports

variable {x : Number} (hx : x.value? = some (UInt64.size : ℚ)) (what : String)
include hx

/-- The first number that is too large for a port is taken for the last port. -/
theorem run_port_of_value {l : Lexeme} (hl : l.token = .number x) (ls : List Lexeme) :
    ((index UInt64.size what).map UInt64.ofNat).run (l :: ls) =
      .ok ⟨UInt64.ofNat (UInt64.size - 1), ls, Nat.lt_succ_self _⟩ :=
  run_map_index_of_denotes UInt64.ofNat what ls hl
    ((denotes_iff (Nat.le_refl _)).2 ⟨by decide, .inr ⟨rfl, hx⟩⟩)

theorem not_takesExactly_of_value :
    ¬TakesExactly ((index UInt64.size what).map UInt64.ofNat) UInt64.toNat UInt64.size x := by
  intro h
  have hnone : ∀ n < UInt64.size, x.value? ≠ some (n : ℚ) := fun n hn hvalue => by
    have heq := Nat.cast_injective (Option.some.inj (hvalue.symm.trans hx))
    omega
  obtain ⟨message, hstop⟩ := h.stops (l := ⟨.number x, 0, 0, 0⟩) rfl hnone []
  rw [run_port_of_value hx what rfl] at hstop
  cases hstop

end Ports

/-- How numbers are read where ids and ports stand. -/
structure ReadsIndices (what : String) (x : Number) : Prop where
  ids : TakesExactly ((index UInt32.size what).map UInt32.ofNat) UInt32.toNat UInt32.size x
  ports : TakesExactly ((index UInt64.size what).map UInt64.ofNat) UInt64.toNat UInt64.size x ↔
    x.value? ≠ some (UInt64.size : ℚ)
  /-- The one number that is read as a port and is none. -/
  last (hx : x.value? = some (UInt64.size : ℚ)) {l : Lexeme} (hl : l.token = .number x)
    (ls : List Lexeme) :
    ((index UInt64.size what).map UInt64.ofNat).run (l :: ls) =
      .ok ⟨UInt64.ofNat (UInt64.size - 1), ls, Nat.lt_succ_self _⟩

theorem readsIndices (what : String) (x : Number) : ReadsIndices what x where
  ids := takesExactly_index what (by decide) (fun _ => UInt32.toNat_ofNat_of_lt') fun _ => by decide
  ports := by
    refine ⟨fun h hx => not_takesExactly_of_value hx what h, fun hx => ?_⟩
    exact takesExactly_index what (Nat.le_refl _) (fun _ => UInt64.toNat_ofNat_of_lt')
      fun hvalue => absurd hvalue hx
  last hx _ hl ls := run_port_of_value hx what hl ls

/-- The first port that 64 bits do not hold is not refused. -/
theorem first_port_too_large_taken : (Number.ofNat UInt64.size).value? = some (UInt64.size : ℚ) ∧
    ¬TakesExactly ((index UInt64.size "port index").map UInt64.ofNat) UInt64.toNat UInt64.size
      (.ofNat UInt64.size) := by
  have hvalue : (Number.ofNat UInt64.size).value? = some (UInt64.size : ℚ) :=
    Number.value?_eq_natCast_iff.2 ⟨by decide +kernel, by decide +kernel, by decide +kernel⟩
  exact ⟨hvalue, not_takesExactly_of_value hvalue "port index"⟩

end Script
end FlowGraph
