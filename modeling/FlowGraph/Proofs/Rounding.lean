import Mathlib.Tactic.Linarith
import Mathlib.Tactic.Ring
import FlowGraph.Number.Decimal

/-! Rounding to the nearest number. A ratio that lies in the interval of a number, where a tie
counts for the even significand, is rounded to that number. -/
namespace FlowGraph

namespace Number

theorem nearestQuotient_eq {n d k : Nat} (hd : 0 < d) (hlow : 2 * (k * d) ≤ 2 * n + d)
    (hhigh : 2 * n ≤ 2 * (k * d) + d)
    (htie : 2 * (k * d) = 2 * n + d ∨ 2 * n = 2 * (k * d) + d → k % 2 = 0) :
    nearestQuotient n d = k := by
  have hn : n / d * d + n % d = n := by
    rw [Nat.mul_comm]
    exact Nat.div_add_mod n d
  have hr : n % d < d := Nat.mod_lt n hd
  have hle : n / d ≤ k := by
    refine Nat.le_of_not_lt fun hlt => ?_
    have := Nat.mul_le_mul_right d (Nat.succ_le_of_lt hlt)
    rw [Nat.succ_mul] at this
    omega
  have hge : k ≤ n / d + 1 := by
    refine Nat.le_of_not_lt fun hlt => ?_
    have := Nat.mul_le_mul_right d (Nat.succ_le_of_lt hlt)
    rw [Nat.succ_mul, Nat.succ_mul] at this
    omega
  simp only [nearestQuotient, Bool.or_eq_true, Bool.and_eq_true, decide_eq_true_eq, beq_iff_eq]
  rcases Nat.lt_or_ge (n / d) k with hlt | hge'
  · -- The quotient is one less: what is left over is more than half, or half with an odd quotient.
    have hk : k = n / d + 1 := by omega
    have hkd : k * d = n / d * d + d := by rw [hk, Nat.succ_mul]
    rw [if_neg]
    · omega
    · rintro (hless | ⟨heq, heven⟩)
      · omega
      · have := htie (.inl (by omega))
        omega
  · have hk : k = n / d := by omega
    have hkd : k * d = n / d * d := by rw [← hk]
    rw [if_pos]
    · exact hk.symm
    · rcases Nat.lt_or_ge (2 * (n % d)) d with hless | hmore
      · exact .inl hless
      · have := htie (.inr (by omega))
        exact .inr ⟨by omega, by omega⟩

/-! ### Magnitudes as significand and exponent -/

theorem exponentWeight_eq : exponentWeight = 2 ^ 52 := by decide

theorem unitsOf_split {s sig : Nat} (hnormal : s = 0 ∨ exponentWeight ≤ sig)
    (hsig : sig ≤ 2 * exponentWeight) : unitsOf (s * exponentWeight + sig) = sig * 2 ^ s := by
  have hpos : 0 < exponentWeight := by decide
  rcases Nat.lt_or_ge sig exponentWeight with hlt | hge
  · obtain rfl : s = 0 := hnormal.resolve_right (Nat.not_le.2 hlt)
    simp [unitsOf, hlt]
  · have hnot : ¬s * exponentWeight + sig < exponentWeight := by omega
    rw [unitsOf, if_neg hnot]
    rcases Nat.lt_or_eq_of_le hsig with hlt | rfl
    · have hsplit : s * exponentWeight + sig =
          exponentWeight * (s + 1) + (sig - exponentWeight) := by
        rw [Nat.mul_add, Nat.mul_comm]
        omega
      rw [hsplit, Nat.mul_add_mod, Nat.mul_add_div hpos, Nat.mod_eq_of_lt (by omega),
        Nat.div_eq_of_lt (by omega : sig - exponentWeight < exponentWeight), Nat.sub_add_cancel hge]
      rfl
    · have hsplit : s * exponentWeight + 2 * exponentWeight = exponentWeight * (s + 2) := by
        rw [← Nat.add_mul, Nat.mul_comm]
      rw [hsplit, Nat.mul_mod_right, Nat.mul_div_cancel_left _ hpos]
      simp only [Nat.zero_add, Nat.pow_eq, show s + 2 - 1 = s + 1 from rfl, Nat.pow_succ]
      ring

theorem exists_split (m : Nat) : ∃ s sig, m = s * exponentWeight + sig ∧ sig < 2 * exponentWeight ∧
    (s = 0 ∨ exponentWeight ≤ sig) := by
  have hpos : 0 < exponentWeight := by decide
  have hmod := Nat.mod_lt m hpos
  have hdiv := Nat.div_add_mod' m exponentWeight
  cases hs : m / exponentWeight with
  | zero =>
    refine ⟨0, m % exponentWeight, ?_, by omega, .inl rfl⟩
    rw [hs] at hdiv
    omega
  | succ s =>
    refine ⟨s, m % exponentWeight + exponentWeight, ?_, by omega, .inr (by omega)⟩
    rw [hs, Nat.succ_mul] at hdiv
    omega

/-- A magnitude lies above the least significand of its exponent, or has just that one. -/
theorem split_cases {m : Nat} (hm : 0 < m) :
    (∃ s sig, m = s * exponentWeight + sig ∧ 0 < sig ∧ (s = 0 ∨ exponentWeight < sig) ∧
      sig < 2 * exponentWeight) ∨ ∃ t, m = (t + 1) * exponentWeight + exponentWeight := by
  obtain ⟨s, sig, rfl, hsig, hnormal⟩ := exists_split m
  cases s with
  | zero => exact .inl ⟨0, sig, rfl, by omega, .inl rfl, hsig⟩
  | succ t =>
    have hle : exponentWeight ≤ sig := hnormal.resolve_left (Nat.succ_ne_zero t)
    rcases Nat.lt_or_eq_of_le hle with hlt | rfl
    · exact .inl ⟨t + 1, sig, rfl, Nat.zero_lt_of_lt hlt, .inr hlt, hsig⟩
    · exact .inr ⟨t, rfl⟩

theorem shift_eq {w s : Nat} (hhigh : w < 2 * exponentWeight * 2 ^ s)
    (hlow : s = 0 ∨ exponentWeight * 2 ^ s ≤ w) : Nat.log2 w - 52 = s := by
  rw [exponentWeight_eq, ← Nat.pow_add_one', ← Nat.pow_add] at hhigh
  rw [exponentWeight_eq, ← Nat.pow_add] at hlow
  rcases Nat.eq_zero_or_pos w with rfl | hw
  · rcases hlow with rfl | hlow
    · rfl
    · have := Nat.two_pow_pos (52 + s)
      omega
  · have hw' : w ≠ 0 := by omega
    have hlt := (Nat.log2_lt hw').2 hhigh
    rcases hlow with rfl | hlow
    · omega
    · have hle := (Nat.le_log2 hw').2 hlow
      omega

/-- Rounding, once the exponent of the result is known. -/
theorem nearestMagnitude_of_shift {n d s sig : Nat} (hd : 0 < d)
    (hfinite : s * exponentWeight + sig < infiniteMagnitude)
    (hshift_high : n * unitsPerOne < 2 * exponentWeight * (d * 2 ^ s))
    (hshift_low : s = 0 ∨ exponentWeight * (d * 2 ^ s) ≤ n * unitsPerOne)
    (hlow : 2 * (sig * (d * 2 ^ s)) ≤ 2 * (n * unitsPerOne) + d * 2 ^ s)
    (hhigh : 2 * (n * unitsPerOne) ≤ 2 * (sig * (d * 2 ^ s)) + d * 2 ^ s)
    (htie : 2 * (sig * (d * 2 ^ s)) = 2 * (n * unitsPerOne) + d * 2 ^ s ∨
      2 * (n * unitsPerOne) = 2 * (sig * (d * 2 ^ s)) + d * 2 ^ s → sig % 2 = 0) :
    nearestMagnitude n d = s * exponentWeight + sig := by
  have hw_high : n * unitsPerOne / d < 2 * exponentWeight * 2 ^ s := by
    refine (Nat.div_lt_iff_lt_mul hd).2 (Nat.lt_of_lt_of_eq hshift_high ?_)
    ring
  have hw_low : s = 0 ∨ exponentWeight * 2 ^ s ≤ n * unitsPerOne / d := by
    refine hshift_low.imp_right fun h => (Nat.le_div_iff_mul_le hd).2
      (Nat.le_trans (Nat.le_of_eq ?_) h)
    ring
  have hquot := nearestQuotient_eq (Nat.mul_pos hd (Nat.two_pow_pos s)) hlow hhigh htie
  simp only [nearestMagnitude, shift_eq hw_high hw_low]
  rw [Nat.pow_eq, hquot, Nat.min_eq_right (Nat.le_of_lt hfinite)]

end Number

namespace Decimal.Interval

open Number

theorem holds_iff {r : Interval} {n d : Nat} : r.holds n d = true ↔
    r.low * d ≤ n ∧ n ≤ r.high * d ∧ (r.low * d = n ∨ n = r.high * d → r.closed = true) := by
  unfold holds
  cases r.closed with
  | true => simp
  | false =>
    simp only [Bool.false_eq_true, if_false, Bool.and_eq_true, decide_eq_true_eq, imp_false, not_or]
    omega

theorem closed_around {s sig : Nat} :
    (around (s * exponentWeight + sig)).closed = true ↔ sig % 2 = 0 := by
  obtain ⟨half, hhalf⟩ : ∃ half, exponentWeight = 2 * half := ⟨exponentWeight / 2, by decide⟩
  have hmod : (s * exponentWeight + sig) % 2 = sig % 2 := by
    rw [hhalf, Nat.mul_left_comm, Nat.mul_add_mod]
  simp [around, hmod]

theorem high_around {s sig : Nat} (hsig : sig < 2 * exponentWeight)
    (hnormal : s = 0 ∨ exponentWeight ≤ sig) :
    (around (s * exponentWeight + sig)).high = (2 * sig + 1) * 2 ^ s := by
  have hnext : unitsOf (s * exponentWeight + sig + 1) = (sig + 1) * 2 ^ s := by
    rw [Nat.add_assoc]
    exact unitsOf_split (hnormal.imp_right fun h => by omega) (by omega)
  have hhere := unitsOf_split hnormal (by omega)
  simp only [around, hhere, hnext]
  ring

/-- Below a significand that is not the least of its exponent. -/
theorem low_around {s sig : Nat} (hsig : sig < 2 * exponentWeight) (hpos : 0 < sig)
    (hnormal : s = 0 ∨ exponentWeight < sig) :
    (around (s * exponentWeight + sig)).low + 2 ^ s = 2 * sig * 2 ^ s := by
  obtain ⟨k, rfl⟩ := Nat.exists_eq_add_of_lt hpos
  have hprevious : unitsOf (s * exponentWeight + (0 + k + 1) - 1) = k * 2 ^ s := by
    rw [← Nat.add_assoc, Nat.add_sub_cancel, Nat.zero_add]
    exact unitsOf_split (hnormal.imp_right fun h => by omega) (by omega)
  have hhere : unitsOf (s * exponentWeight + (0 + k + 1)) = (0 + k + 1) * 2 ^ s :=
    unitsOf_split (hnormal.imp_right Nat.le_of_lt) (by omega)
  simp only [around, hhere, hprevious]
  ring

/-- Below the least significand the numbers lie twice as close. -/
theorem low_around_least (t : Nat) :
    (around ((t + 1) * exponentWeight + exponentWeight)).low + 2 ^ t =
    4 * exponentWeight * 2 ^ t := by
  have hpos : 0 < exponentWeight := by decide
  have hprevious : unitsOf ((t + 1) * exponentWeight + exponentWeight - 1) =
      (2 * exponentWeight - 1) * 2 ^ t := by
    have hsplit : (t + 1) * exponentWeight + exponentWeight - 1 =
        t * exponentWeight + (2 * exponentWeight - 1) := by
      rw [Nat.succ_mul]
      omega
    rw [hsplit]
    exact unitsOf_split (.inr (by omega)) (by omega)
  have hhere : unitsOf ((t + 1) * exponentWeight + exponentWeight) = exponentWeight * 2 ^ (t + 1) :=
    unitsOf_split (.inr (Nat.le_refl _)) (by omega)
  have hstep : (2 * exponentWeight - 1) * 2 ^ t + 2 ^ t = 2 * exponentWeight * 2 ^ t := by
    rw [← Nat.succ_mul, Nat.succ_eq_add_one, Nat.sub_add_cancel (by omega)]
  simp only [around, hhere, hprevious]
  rw [Nat.add_right_comm, hstep]
  ring

/-- Above the least significand of its exponent. -/
theorem nearestMagnitude_above {n d s sig : Nat} (hd : 0 < d) (hpos : 0 < sig)
    (hsig : sig < 2 * exponentWeight) (habove : s = 0 ∨ exponentWeight < sig)
    (hfinite : s * exponentWeight + sig < infiniteMagnitude)
    (hholds : (around (s * exponentWeight + sig)).holds (2 * (n * unitsPerOne)) d = true) :
    nearestMagnitude n d = s * exponentWeight + sig := by
  obtain ⟨hlow, hhigh, htie⟩ := holds_iff.1 hholds
  rw [closed_around] at htie
  rw [high_around hsig (habove.imp_right Nat.le_of_lt)] at hhigh htie
  generalize hD : d * 2 ^ s = D
  have hDpos : 0 < D := hD ▸ Nat.mul_pos hd (Nat.two_pow_pos s)
  have hhighD : (2 * sig + 1) * 2 ^ s * d = 2 * (sig * D) + D := by
    rw [← hD]
    ring
  have hlowD : (around (s * exponentWeight + sig)).low * d + D = 2 * (sig * D) := by
    rw [← hD, Nat.mul_comm d, ← Nat.add_mul, low_around hsig hpos habove]
    ring
  have hsigD : sig * D + D ≤ 2 * exponentWeight * D := by
    rw [← Nat.succ_mul]
    exact Nat.mul_le_mul_right D hsig
  rw [hhighD] at hhigh htie
  refine nearestMagnitude_of_shift hd hfinite ?_ ?_ ?_ ?_ ?_ <;> rw [hD]
  · omega
  · refine habove.imp_right fun h => ?_
    have := Nat.mul_le_mul_right D (Nat.succ_le_of_lt h)
    rw [Nat.succ_mul] at this
    omega
  · omega
  · omega
  · exact fun h => htie (by omega)

/-- At the least significand of its exponent. What lies below it has the exponent before. -/
theorem nearestMagnitude_least {n d t : Nat} (hd : 0 < d)
    (hfinite : (t + 1) * exponentWeight + exponentWeight < infiniteMagnitude)
    (hholds : (around ((t + 1) * exponentWeight + exponentWeight)).holds
      (2 * (n * unitsPerOne)) d = true) :
    nearestMagnitude n d = (t + 1) * exponentWeight + exponentWeight := by
  have hE : 0 < exponentWeight := by decide
  obtain ⟨hlow, hhigh, -⟩ := holds_iff.1 hholds
  rw [high_around (by omega) (.inr (Nat.le_refl _))] at hhigh
  generalize hC : d * 2 ^ t = C
  have hCpos : 0 < C := hC ▸ Nat.mul_pos hd (Nat.two_pow_pos t)
  have hD : d * 2 ^ (t + 1) = 2 * C := by
    rw [← hC, Nat.pow_succ]
    ring
  have hhighC : (2 * exponentWeight + 1) * 2 ^ (t + 1) * d = 4 * (exponentWeight * C) + 2 * C := by
    rw [Nat.mul_assoc, Nat.mul_comm _ d, hD]
    ring
  have hlowC : (around ((t + 1) * exponentWeight + exponentWeight)).low * d + C =
      4 * (exponentWeight * C) := by
    rw [← hC, Nat.mul_comm d, ← Nat.add_mul, low_around_least]
    ring
  have hEC : C ≤ exponentWeight * C := Nat.le_mul_of_pos_left C hE
  have htwice : exponentWeight * (2 * C) = 2 * (exponentWeight * C) := Nat.mul_left_comm _ _ _
  have htwo : 2 * exponentWeight * C = 2 * (exponentWeight * C) := Nat.mul_assoc _ _ _
  rw [hhighC] at hhigh
  rcases Nat.lt_or_ge (n * unitsPerOne) (exponentWeight * (2 * C)) with hbelow | habove
  · have hm : (t + 1) * exponentWeight + exponentWeight =
        t * exponentWeight + 2 * exponentWeight := by
      rw [Nat.succ_mul]
      omega
    rw [hm] at hfinite ⊢
    refine nearestMagnitude_of_shift hd hfinite ?_ ?_ ?_ ?_ ?_ <;> rw [hC]
    · omega
    · exact .inr (by omega)
    · omega
    · omega
    · exact fun _ => Nat.mul_mod_right 2 exponentWeight
  · refine nearestMagnitude_of_shift hd hfinite ?_ ?_ ?_ ?_ ?_ <;> rw [hD]
    · rw [Nat.mul_assoc]
      omega
    · exact .inr habove
    · omega
    · omega
    · exact fun _ => by decide

/-- What lies in the interval of a number is rounded to it. -/
theorem nearestMagnitude_eq {n d m : Nat} (hd : 0 < d) (hpos : 0 < m)
    (hfinite : m < infiniteMagnitude) (hholds : (around m).holds (2 * (n * unitsPerOne)) d = true) :
    nearestMagnitude n d = m := by
  rcases split_cases hpos with ⟨s, sig, rfl, hsig, habove, hlt⟩ | ⟨t, rfl⟩
  · exact nearestMagnitude_above hd hsig hlt habove hfinite hholds
  · exact nearestMagnitude_least hd hfinite hholds

end Decimal.Interval
end FlowGraph
