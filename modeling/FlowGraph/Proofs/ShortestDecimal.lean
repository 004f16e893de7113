import FlowGraph.Proofs.Rounding

/-! The shortest decimal of a number is read back as the number. -/
namespace FlowGraph

namespace Number

theorem ofMagnitude_eq (x : Number) : ofMagnitude x.negative x.magnitude = x := by
  have hlt : x.bits.toNat < 2 * signWeight := x.bits.toNat_lt
  have hbits : (if x.negative then signWeight else 0) + x.magnitude = x.bits.toNat := by
    simp only [negative, magnitude, decide_eq_true_eq]
    split
    · rw [Nat.mod_eq_sub_mod ‹_›, Nat.mod_eq_of_lt (by omega)]
      omega
    · rw [Nat.mod_eq_of_lt (by omega)]
      omega
  rw [ofMagnitude, hbits, UInt64.ofNat_toNat]

theorem unitsOf_pos {m : Nat} (hm : 0 < m) : 0 < unitsOf m := by
  have hpos : 0 < exponentWeight := by decide
  unfold unitsOf
  split
  · exact hm
  · exact Nat.mul_pos (by omega) (Nat.two_pow_pos _)

theorem unitsOf_lt {m : Nat} (hm : m < infiniteMagnitude) : unitsOf m < 2 ^ 2098 := by
  obtain ⟨s, sig, rfl, hsig, hnormal⟩ := exists_split m
  have hs : s ≤ 2045 := by
    refine Nat.le_of_not_lt fun hlt => ?_
    have hsig' : exponentWeight ≤ sig := hnormal.resolve_left (by omega)
    have := Nat.mul_le_mul_right exponentWeight (Nat.succ_le_of_lt hlt)
    rw [infiniteMagnitude] at hm
    omega
  rw [unitsOf_split hnormal (Nat.le_of_lt hsig)]
  calc sig * 2 ^ s < 2 * exponentWeight * 2 ^ s :=
    Nat.mul_lt_mul_of_pos_right hsig (Nat.two_pow_pos s)
    _ ≤ 2 * exponentWeight * 2 ^ 2045 := Nat.mul_le_mul_left _ (Nat.pow_le_pow_right (by decide) hs)
    _ = 2 ^ 2098 := by decide +kernel

end Number

namespace Decimal

open Number

theorem width_le_iff (n k : Nat) (hk : 0 < k) : width n ≤ k ↔ n < 10 ^ k :=
  Nat.length_toDigits_le_iff (by decide) hk

theorem lt_pow_width (n : Nat) : n < 10 ^ width n :=
  (width_le_iff n _ Nat.length_toDigits_pos).1 (Nat.le_refl _)

namespace Interval

theorem value_around {s sig : Nat} (hnormal : s = 0 ∨ exponentWeight ≤ sig)
    (hsig : sig < 2 * exponentWeight) :
    (around (s * exponentWeight + sig)).value = 2 * sig * 2 ^ s := by
  simp only [around, unitsOf_split hnormal (Nat.le_of_lt hsig)]
  ring

theorem low_lt_value {m : Nat} (hm : 0 < m) : (around m).low < (around m).value := by
  rcases split_cases hm with ⟨s, sig, rfl, hpos, habove, hsig⟩ | ⟨t, rfl⟩
  · have hlow := low_around hsig hpos habove
    have hpow := Nat.two_pow_pos s
    rw [value_around (habove.imp_right Nat.le_of_lt) hsig]
    omega
  · have hlow := low_around_least t
    have hpow := Nat.two_pow_pos t
    have htwice : 2 * exponentWeight * 2 ^ (t + 1) = 4 * exponentWeight * 2 ^ t := by ring
    rw [value_around (.inr (Nat.le_refl _)) (by decide), htwice]
    omega

theorem value_lt_high (m : Nat) : (around m).value < (around m).high := by
  obtain ⟨s, sig, rfl, hsig, hnormal⟩ := exists_split m
  have hpow := Nat.two_pow_pos s
  rw [value_around hnormal hsig, high_around hsig hnormal, Nat.add_mul, Nat.one_mul]
  omega

/-- The number itself lies in its interval. -/
theorem holds_value {m d : Nat} (hm : 0 < m) (hd : 0 < d) :
    (around m).holds ((around m).value * d) d = true := by
  have hlow := Nat.mul_lt_mul_of_pos_right (low_lt_value hm) hd
  have hhigh := Nat.mul_lt_mul_of_pos_right (value_lt_high m) hd
  exact holds_iff.2 ⟨Nat.le_of_lt hlow, Nat.le_of_lt hhigh, fun h => by omega⟩

/-- Nothing in the interval is less than half a unit. -/
theorem le_of_holds {m n d : Nat} (hm : 0 < m) (h : (around m).holds n d = true) : d ≤ n := by
  obtain ⟨hlow, -, -⟩ := holds_iff.1 h
  have hpos : 0 < (around m).low := Nat.add_pos_right _ (unitsOf_pos hm)
  exact Nat.le_trans (Nat.le_mul_of_pos_left d hpos) hlow

end Interval

/-- A decimal in the interval of a number is read as the number. -/
theorem toNumber_of_holds {m : Nat} (hm : 0 < m) (hfinite : m < infiniteMagnitude) (negative : Bool)
    {digits : Nat} {exponent : Int} (hexponent : exponent ≤ 400)
    (hneg : exponent < 0 →
      (Interval.around m).holds (2 * (digits * unitsPerOne)) (10 ^ exponent.natAbs) = true)
    (hnonneg : 0 ≤ exponent →
      (Interval.around m).holds (2 * (digits * 10 ^ exponent.natAbs * unitsPerOne)) 1 = true) :
    toNumber negative ⟨digits, exponent⟩ = ofMagnitude negative m := by
  have hdigits : digits ≠ 0 := by
    rintro rfl
    rcases Int.lt_or_le exponent 0 with h | h
    · have hle := Interval.le_of_holds hm (hneg h)
      have := Nat.pow_pos (n := exponent.natAbs) (by decide : 0 < 10)
      omega
    · have hle := Interval.le_of_holds hm (hnonneg h)
      omega
  have hhigh : ¬400 < exponent := by omega
  have hlow : ¬exponent + width digits < -400 := by
    intro hlt
    have h : exponent < 0 := by omega
    have hle := Interval.le_of_holds hm (hneg h)
    have hwidth := lt_pow_width digits
    have hpow : 10 ^ (width digits + 401) ≤ 10 ^ exponent.natAbs :=
      Nat.pow_le_pow_right (by decide) (by omega)
    rw [Nat.pow_add] at hpow
    have hunits : 2 * unitsPerOne < 10 ^ 401 := by decide +kernel
    have hmul : digits * (2 * unitsPerOne) < 10 ^ width digits * 10 ^ 401 :=
      Nat.mul_lt_mul_of_lt_of_lt hwidth hunits
    rw [Nat.mul_left_comm] at hmul
    omega
  simp only [toNumber, if_neg hdigits, if_neg hhigh, if_neg hlow, ofRatio, Nat.pow_eq]
  split
  · next h =>
    rw [Interval.nearestMagnitude_eq (Nat.pow_pos (by decide)) hm hfinite (hneg h)]
  · next h =>
    rw [Interval.nearestMagnitude_eq (by decide) hm hfinite (hnonneg (Int.not_lt.1 h))]

/-- A multiple that is taken lies in the interval. -/
theorem holds_of_multiple {tie : Tie} {r : Interval} {step scale digits : Nat}
    (h : multiple tie r step scale = some digits) : r.holds (digits * step) scale = true := by
  simp only [multiple] at h
  generalize r.value * scale / step = below at h
  have hparity : below + below % 2 = below ∨ below + below % 2 = below + 1 := by omega
  split at h
  · next hthis hnext =>
    split at h
    · exact Option.some.inj h ▸ hthis
    · split at h
      · exact Option.some.inj h ▸ hnext
      · cases tie with
        | up => exact Option.some.inj h ▸ hnext
        | toEven =>
          have heq := Option.some.inj h
          rcases hparity with hp | hp
          · rw [← heq, hp]
            exact hthis
          · rw [← heq, hp]
            exact hnext
  · next hthis _ => exact Option.some.inj h ▸ hthis
  · next _ hnext => exact Option.some.inj h ▸ hnext
  · cases h

theorem holds_of_onGrid {tie : Tie} {r : Interval} {exponent : Int} {digits : Nat}
    (h : onGrid tie r exponent = some digits) :
    (exponent < 0 → r.holds (2 * (digits * unitsPerOne)) (10 ^ exponent.natAbs) = true) ∧
      (0 ≤ exponent → r.holds (2 * (digits * 10 ^ exponent.natAbs * unitsPerOne)) 1 = true) := by
  simp only [onGrid] at h
  constructor
  · intro hneg
    rw [if_pos hneg] at h
    have hholds := holds_of_multiple h
    rw [Nat.mul_left_comm] at hholds
    exact hholds
  · intro hnonneg
    rw [if_neg (Int.not_lt.2 hnonneg)] at h
    have hholds := holds_of_multiple h
    rw [← Nat.mul_assoc, Nat.mul_left_comm] at hholds
    exact hholds

/-- The decimal that is the number exactly. -/
theorem toNumber_exact {m k power : Nat} (hm : 0 < m) (hfinite : m < infiniteMagnitude)
    (hk : unitsPerOne = Nat.pow 2 k) (hpower : power = Nat.pow 5 k) {exponent : Int}
    (hexponent : exponent = -k) (negative : Bool) :
    toNumber negative ⟨(Interval.around m).value * power / 2, exponent⟩ =
      ofMagnitude negative m := by
  have hdigits : 2 * ((Interval.around m).value * power / 2) = (Interval.around m).value * power :=
    Nat.mul_div_cancel' (Dvd.dvd.mul_right ⟨unitsOf m, rfl⟩ _)
  have hexact : 2 * ((Interval.around m).value * power / 2 * unitsPerOne) =
      (Interval.around m).value * 10 ^ k := by
    have hpow : Nat.pow 5 k * Nat.pow 2 k = 10 ^ k := (Nat.mul_pow 5 2 k).symm
    rw [← Nat.mul_assoc, hdigits, hk, hpower, Nat.mul_assoc, hpow]
  have hholds := Interval.holds_value hm (Nat.pow_pos (n := k) (by decide : 0 < 10))
  rw [← hexact] at hholds
  subst hexponent
  refine toNumber_of_holds hm hfinite negative (by omega) (fun _ => ?_) (fun h => ?_)
  · rw [Int.natAbs_neg, Int.natAbs_natCast]
    exact hholds
  · obtain rfl : k = 0 := by omega
    simpa using hholds

theorem toNumber_search {m : Nat} (hm : 0 < m) (hfinite : m < infiniteMagnitude) (negative : Bool)
    (tie : Tie) (exponent : Int) (hexponent : exponent ≤ 400) :
    toNumber negative (search tie (.around m) exponent) = ofMagnitude negative m ∧
      (search tie (.around m) exponent).exponent ≤ 400 := by
  fun_induction search tie (.around m) exponent with
  | case1 exponent digits hgrid =>
    have hholds := holds_of_onGrid hgrid
    exact ⟨toNumber_of_holds hm hfinite negative hexponent hholds.1 hholds.2, hexponent⟩
  | case2 exponent hgrid hend =>
    exact ⟨toNumber_exact (k := 1074) hm hfinite (by decide +kernel) (by decide +kernel)
      rfl negative, (by decide : (-1074 : Int) ≤ 400)⟩
  | case3 exponent hgrid hend ih => exact ih (by omega)

theorem topExponent_le {units : Nat} (h : units < 2 ^ 2098) : topExponent units ≤ 400 := by
  unfold topExponent
  split
  · have hlt : units / unitsPerOne < 10 ^ 400 :=
      Nat.lt_of_le_of_lt (Nat.div_le_div_right (Nat.le_of_lt h)) (by decide +kernel)
    have hwidth := (width_le_iff (units / unitsPerOne) 400 (by decide)).2 hlt
    omega
  · omega

/-- The shortest decimal of a number other than zero is read as the number. -/
theorem toNumber_shortest {x : Number} (hfinite : x.isFinite = true) (hzero : x.isZero = false)
    (tie : Tie) : toNumber x.negative (shortest tie x) = x ∧ (shortest tie x).exponent ≤ 400 := by
  have hm : 0 < x.magnitude := by
    simp only [isZero, decide_eq_false_iff_not] at hzero
    omega
  have hlt : x.magnitude < infiniteMagnitude := by simpa [isFinite] using hfinite
  have htop : topExponent x.units ≤ 400 := topExponent_le (unitsOf_lt hlt)
  have hsearch := toNumber_search hm hlt x.negative tie _ htop
  rw [ofMagnitude_eq] at hsearch
  simpa [shortest, hzero] using hsearch

end Decimal
end FlowGraph
