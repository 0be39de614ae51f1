import BrailleScore.Timeline.Binary64
import Mathlib

/-!
# Quotients in binary64 arithmetic

In binary64 arithmetic a quotient of moderate size is off by less than a unit in a place far behind
the point. A half that it is not equal to is farther away than that, because the denominator is
small. So rounding the binary64 number to a whole number gives what rounding the exact quotient
does: no half is missed and none is made up.
-/

namespace BrailleScore.Binary64

open Float.Model Float.Model.UnpackedFloat

/-! ### Rounding to 53 bits -/

variable {n d m : Nat} {e : Int} (s : UnpackedFloat.Sign)

/-- The mantissa is the quotient `n / d` in units of `2 ^ e`, rounded down or up. -/
structure Approximates (n d m : Nat) (e : Int) : Prop where
  le : n * 2 ^ (-e).toNat / d ≤ m
  le_succ : m ≤ n * 2 ^ (-e).toNat / d + 1

lemma div_two_pow (n d : Nat) {e : Int} {k : Nat} (he : e + k ≤ 0) :
    n * 2 ^ (-e).toNat / d / 2 ^ k = n * 2 ^ (-(e + k)).toNat / d := by
  have hplaces : (-e).toNat = (-(e + k)).toNat + k := by omega
  rw [hplaces, pow_add, ← mul_assoc, Nat.div_div_eq_div_mul]
  exact Nat.mul_div_mul_right _ _ (Nat.two_pow_pos k)

lemma Approximates.shift (h : Approximates n d m e) {k : Nat} (he : e + k ≤ 0) :
    Approximates n d (m / 2 ^ k) (e + k) := by
  constructor
  · rw [← div_two_pow n d he]
    exact Nat.div_le_div_right h.le
  · rw [← div_two_pow n d he]
    calc m / 2 ^ k ≤ (n * 2 ^ (-e).toNat / d + 2 ^ k) / 2 ^ k :=
          Nat.div_le_div_right (h.le_succ.trans (Nat.add_le_add_left Nat.one_le_two_pow _))
      _ = n * 2 ^ (-e).toNat / d / 2 ^ k + 1 := Nat.add_div_right _ (Nat.two_pow_pos k)

/-- A quotient below `2 ^ 11` has at most eleven binary places before the point. -/
lemma Approximates.log2_add_le (h : Approximates n d m e) (hd : 0 < d) (hn : n < 2 ^ 11 * d)
    (he : e ≤ 0) : (m.log2 : Int) + e ≤ 11 := by
  have hquotient : n * 2 ^ (-e).toNat / d < 2 ^ (11 + (-e).toNat) := by
    rw [Nat.div_lt_iff_lt_mul hd, pow_add]
    calc n * 2 ^ (-e).toNat < 2 ^ 11 * d * 2 ^ (-e).toNat :=
          Nat.mul_lt_mul_of_pos_right hn (Nat.two_pow_pos _)
      _ = 2 ^ 11 * 2 ^ (-e).toNat * d := by ring
  have hm : m ≤ 2 ^ (11 + (-e).toNat) := h.le_succ.trans hquotient
  have hlog : m.log2 ≤ 11 + (-e).toNat := by
    rw [Nat.log2_eq_log_two]
    exact (Nat.log_mono_right hm).trans_eq (Nat.log_pow one_lt_two _)
  omega

lemma mantissa_shiftRight (em : ExtendedMantissa) (k : Nat) :
    (em >>> k).mantissa = em.mantissa / 2 ^ k := by
  induction k with
  | zero => rw [pow_zero, Nat.div_one]; rfl
  | succ k ih =>
    have hsucc : (em >>> (k + 1)).mantissa = (em >>> k).mantissa / 2 := rfl
    rw [hsucc, ih, Nat.div_div_eq_div_mul, ← pow_succ]

lemma mantissa_ofMantissaAndAccuracy (m : Nat) (a : Accuracy) :
    (ExtendedMantissa.ofMantissaAndAccuracy m a).mantissa = m := by
  cases a with
  | exact => rfl
  | inexact o => cases o <;> rfl

lemma roundedMantissa_bounds (em : ExtendedMantissa) :
    em.mantissa ≤ em.roundedMantissa ∧ em.roundedMantissa ≤ em.mantissa + 1 := by
  unfold ExtendedMantissa.roundedMantissa
  cases em.accuracy with
  | exact => exact ⟨le_refl _, Nat.le_succ _⟩
  | inexact o =>
    cases o with
    | lt => exact ⟨le_refl _, Nat.le_succ _⟩
    | eq =>
      rw [Accuracy.roundToNearestEven]
      omega
    | gt => exact ⟨Nat.le_succ _, le_refl _⟩

lemma targetExponent_eq (t : Int) :
    Format.binary64.targetExponent t = max (t - 53) (-1074) := rfl

lemma mantissa_shiftToTargetExponent (m : Nat) (e : Int) (a : Accuracy) :
    ∃ k : Nat, (shiftToTargetExponent .binary64 m e a).1.mantissa = m / 2 ^ k ∧
      (shiftToTargetExponent .binary64 m e a).2 = e + k ∧
      e + k = max e (max (m.log2 + 1 + e - 53) (-1074)) := by
  refine ⟨(max ((m.log2 : Int) + 1 + e - 53) (-1074) - e).toNat, ?_, ?_, by omega⟩
  · rw [shiftToTargetExponent, targetExponent_eq, totalExponent, shiftToExponent,
      mantissa_shiftRight, mantissa_ofMantissaAndAccuracy]
  · rw [shiftToTargetExponent, targetExponent_eq, totalExponent, shiftToExponent]

/-- Shifting to 53 bits leaves at least 41 of them behind the point. -/
lemma Approximates.exists_shift (h : Approximates n d m e) (hd : 0 < d) (hn : n < 2 ^ 11 * d)
    (he : e ≤ -41) (a : Accuracy) :
    ∃ k : Nat, (shiftToTargetExponent .binary64 m e a).1.mantissa = m / 2 ^ k ∧
      (shiftToTargetExponent .binary64 m e a).2 = e + k ∧ e + k ≤ -41 := by
  obtain ⟨k, hmantissa, hexponent, hk⟩ := mantissa_shiftToTargetExponent m e a
  have hlog := h.log2_add_le hd hn (by omega)
  exact ⟨k, hmantissa, hexponent, by omega⟩

lemma Approximates.pos (h : Approximates n d m e) (hd : 0 < d) (hpos : d ≤ n * 2 ^ 41)
    (he : e ≤ -41) : 0 < m := by
  refine Nat.lt_of_lt_of_le (Nat.div_pos ?_ hd) h.le
  exact hpos.trans (Nat.mul_le_mul_left n (Nat.pow_le_pow_right two_pos (by omega)))

/-- The mantissa is rounded once, and shifted again if it has got one more bit by that. -/
lemma exists_roundWithAccuracy (a : Accuracy) (hd : 0 < d) (hpos : d ≤ n * 2 ^ 41)
    (hn : n < 2 ^ 11 * d) (he : e ≤ -41) :
    ∃ m' e' h, roundWithAccuracy .binary64 s (n * 2 ^ (-e).toNat / d) e a = .finite s m' e' h ∧
      e' ≤ -41 ∧ Approximates n d m' e' := by
  set q := n * 2 ^ (-e).toNat / d
  have hq : Approximates n d q e := ⟨le_refl _, Nat.le_succ _⟩
  obtain ⟨k, hmantissa, hexponent, hle⟩ := hq.exists_shift hd hn he a
  set first := shiftToTargetExponent .binary64 q e a
  have hrounded : Approximates n d first.1.roundedMantissa first.2 := by
    obtain ⟨hlower, hupper⟩ := roundedMantissa_bounds first.1
    rw [hmantissa, div_two_pow n d (by omega), ← hexponent] at hlower hupper
    exact ⟨hlower, hupper⟩
  rw [← hexponent] at hle
  obtain ⟨k', hmantissa', hexponent', hle'⟩ := hrounded.exists_shift hd hn hle .exact
  set last := shiftToTargetExponent .binary64 first.1.roundedMantissa first.2 .exact
  have hshifted : Approximates n d last.1.mantissa last.2 := by
    rw [hmantissa', hexponent']
    exact hrounded.shift (by omega)
  rw [← hexponent'] at hle'
  have hlast := hshifted.pos hd hpos hle'
  exact ⟨_, _, hlast, dif_neg hlast.ne', hle', hshifted⟩

/-! ### Whole numbers -/

lemma log2_mul_two_pow (hn : 0 < n) (k : Nat) : (n * 2 ^ k).log2 = n.log2 + k := by
  induction k with
  | zero => rw [pow_zero, mul_one, add_zero]
  | succ k ih =>
    have hne : n * 2 ^ k ≠ 0 := (Nat.mul_pos hn (Nat.two_pow_pos k)).ne'
    rw [pow_succ, ← mul_assoc, Nat.log2_eq_log_two, Nat.log_mul_base one_lt_two hne,
      ← Nat.log2_eq_log_two, ih, add_assoc]

lemma shiftToTargetExponent_eq_self (hm : m.log2 ≤ 52) (he : -1074 ≤ e) :
    shiftToTargetExponent .binary64 m e .exact = (⟨m, false, false⟩, e) := by
  have hshift : (max ((m.log2 : Int) + 1 + e - 53) (-1074) - e).toNat = 0 := by omega
  rw [shiftToTargetExponent, targetExponent_eq, totalExponent, shiftToExponent, hshift]
  exact Prod.ext rfl (add_zero e)

/-- Below `2 ^ 53` nothing is rounded. -/
lemma round_eq_finite (hn : 0 < n) (hlt : n < 2 ^ 53) :
    ∃ k h, n.log2 + k = 52 ∧
      UnpackedFloat.round .binary64 s n 0 = .finite s (n * 2 ^ k) (-k : Int) h := by
  have hlog : n.log2 < 53 := (Nat.log2_lt hn.ne').mpr hlt
  obtain ⟨k, hk⟩ : ∃ k, n.log2 + k = 52 := ⟨52 - n.log2, by omega⟩
  have hpos : 0 < n * 2 ^ k := Nat.mul_pos hn (Nat.two_pow_pos k)
  have hself : shiftToTargetExponent .binary64 (n * 2 ^ k) (-k : Int) .exact =
      (⟨n * 2 ^ k, false, false⟩, (-k : Int)) := by
    apply shiftToTargetExponent_eq_self
    · rw [log2_mul_two_pow hn, hk]
    · omega
  have htarget : max ((n.log2 : Int) + 1 + 0 - 53) (-1074) = -k := by omega
  have hdecrease : decreaseExponent n 0 (-k : Int) = (n * 2 ^ k, (-k : Int)) := by
    rw [decreaseExponent, zero_sub, neg_neg, Int.toNat_natCast, Nat.shiftLeft_eq, zero_sub]
  refine ⟨k, hpos, hk, ?_⟩
  rw [UnpackedFloat.round, targetExponent_eq, totalExponent, htarget, hdecrease]
  simp only [roundWithAccuracy, hself]
  have hrounded : ExtendedMantissa.roundedMantissa ⟨n * 2 ^ k, false, false⟩ = n * 2 ^ k := rfl
  simp only [hrounded, hself]
  exact dif_neg hpos.ne'

lemma ofInt_apply (hn : 0 < n) :
    UnpackedFloat.ofInt .binary64 (s.apply n) = round .binary64 s n 0 := by
  unfold UnpackedFloat.ofInt UnpackedFloat.normalize
  cases s with
  | positive =>
    rw [UnpackedFloat.Sign.apply, Int.compare_eq_gt.mpr (by omega)]
    rfl
  | negative =>
    rw [UnpackedFloat.Sign.apply, Int.compare_eq_lt.mpr (by omega)]
    simp only [neg_neg, Int.toNat_natCast]

lemma exists_ofNat (hn : 0 < n) (hlt : n < 2 ^ 53) :
    ∃ k h, n.log2 + k = 52 ∧
      UnpackedFloat.ofNat .binary64 n = .finite .positive (n * 2 ^ k) (-k : Int) h := by
  obtain ⟨k, h, hlog, hround⟩ := round_eq_finite .positive hn hlt
  exact ⟨k, h, hlog, (ofInt_apply .positive hn).trans hround⟩

lemma exists_sign (z : Int) : ∃ (s : UnpackedFloat.Sign) (n : Nat), z = s.apply n := by
  obtain h | h := Int.natAbs_eq z
  · exact ⟨.positive, z.natAbs, h⟩
  · exact ⟨.negative, z.natAbs, h⟩

@[simp] lemma natAbs_apply (n : Nat) : (s.apply n).natAbs = n := by
  cases s with
  | positive => rfl
  | negative => exact Int.natAbs_neg n

lemma roundToInt_eq (n k : Nat) : roundToInt s (n * 2 ^ k) (-k : Int) = s.apply n := by
  have hdecrease : decreaseExponent (n * 2 ^ k) (-k : Int) 0 = (n * 2 ^ k, (-k : Int)) := by
    have hshift : (-(k : Int) - 0).toNat = 0 := by omega
    rw [decreaseExponent, hshift]
    exact Prod.ext rfl (sub_zero _)
  have hshift : (0 - -(k : Int)).toNat = k := by omega
  simp only [roundToInt, hdecrease, shiftToExponent, hshift, mantissa_shiftRight,
    mantissa_ofMantissaAndAccuracy, Nat.mul_div_cancel n (Nat.two_pow_pos k)]

/-- A whole number comes back from its binary64 number. -/
lemma toInt_toInt32_ofInt {z : Int} (h : z.natAbs < 2 ^ 31) :
    (UnpackedFloat.ofInt .binary64 z).toInt32.toInt = z := by
  have hback : (UnpackedFloat.ofInt .binary64 z).toInt Int32.minValue.toInt
      Int32.maxValue.toInt = z := by
    obtain ⟨s, n, rfl⟩ := exists_sign z
    rw [natAbs_apply] at h
    obtain rfl | hn := Nat.eq_zero_or_pos n
    · cases s <;> rfl
    · obtain ⟨k, hk, -, hround⟩ := round_eq_finite s hn (h.trans (by decide))
      rw [ofInt_apply s hn, hround, UnpackedFloat.toInt, roundToInt_eq]
  have hmin : Int32.minValue.toInt = -2 ^ 31 := rfl
  have hmax : Int32.maxValue.toInt = 2 ^ 31 - 1 := rfl
  rw [UnpackedFloat.toInt32, hback]
  exact Int32.toInt_ofIntClamp (by omega) (by omega)

/-! ### Quotients and halves -/

/-- Mantissas of 53 bits are divided with 53 further bits. -/
lemma exists_divCore {k l : Nat} (hn : 0 < n) (hd : 0 < d) (hk : n.log2 + k = 52)
    (hl : d.log2 + l = 52) :
    ∃ e a, divCore .binary64 (n * 2 ^ k) (-k) (d * 2 ^ l) (-l) =
        (n * 2 ^ (-e).toNat / d, e, a) ∧
      e = n.log2 - d.log2 - 53 := by
  obtain ⟨e, he⟩ : ∃ e : Int, e = n.log2 - d.log2 - 53 := ⟨_, rfl⟩
  have htarget : min (-(k : Int) - -(l : Int)) (max (totalExponent (n * 2 ^ k) (-k) -
      totalExponent (d * 2 ^ l) (-l) - 53) (-1074)) = e := by
    rw [totalExponent, totalExponent, log2_mul_two_pow hn, log2_mul_two_pow hd]
    omega
  have hshift : (-(k : Int) - -(l : Int) - e).toNat = 53 := by omega
  have hquotient : n * 2 ^ k * 2 ^ 53 / (d * 2 ^ l) = n * 2 ^ (-e).toNat / d := by
    have hplaces : k + 53 = (-e).toNat + l := by omega
    rw [mul_assoc, ← pow_add, hplaces, pow_add, ← mul_assoc]
    exact Nat.mul_div_mul_right _ _ (Nat.two_pow_pos l)
  refine ⟨e, accuracyOfFraction (n * 2 ^ k * 2 ^ 53 % (d * 2 ^ l)) (d * 2 ^ l), ?_, he⟩
  simp only [divCore, targetExponent_eq, htarget, hshift, Nat.shiftLeft_eq, hquotient]

lemma log2_le_of_lt (hd : 0 < d) (hlt : n < 2 ^ 11 * d) : n.log2 ≤ d.log2 + 11 := by
  rw [← log2_mul_two_pow hd, mul_comm, Nat.log2_eq_log_two, Nat.log2_eq_log_two]
  exact Nat.log_mono_right hlt.le

lemma exists_quotient {sum : Int32} {count : Nat} (hs : sum.toInt = s.apply n)
    (hn : 0 < n) (hcount : 0 < count) (hle : count ≤ 2 ^ 20) (hlt : n < 2 ^ 11 * count) :
    ∃ m e h, quotient sum count = .finite s m e h ∧ e ≤ -41 ∧ Approximates n count m e := by
  obtain ⟨k, hk, hlog, hround⟩ := round_eq_finite s hn (by omega)
  obtain ⟨l, hl, hlog', hofNat⟩ := exists_ofNat hcount (by omega)
  have hsign : s / .positive = s := by cases s <;> rfl
  obtain ⟨e, a, hdiv, he⟩ := exists_divCore hn hcount hlog hlog'
  rw [quotient, UnpackedFloat.ofInt32, hs, ofInt_apply s hn, hround, hofNat, UnpackedFloat.div]
  simp only [hdiv, hsign]
  apply exists_roundWithAccuracy s a hcount (by omega) hlt
  have hle := log2_le_of_lt hcount hlt
  omega

/-- Twice the approximated quotient has the same whole part as twice the quotient itself. -/
lemma Approximates.halves_eq (h : Approximates n d m e) (hd : 0 < d)
    (hlt : 2 * d < 2 ^ (-e).toNat) : 2 * m / 2 ^ (-e).toNat = 2 * n / d := by
  obtain ⟨t, ht⟩ : ∃ t, (-e).toNat = t + 1 :=
    Nat.exists_eq_succ_of_ne_zero fun h => by rw [h] at hlt; omega
  obtain ⟨hle, hle'⟩ := h
  rw [ht] at hle hle' hlt ⊢
  apply Nat.div_eq_of_lt_le
  · have hhalves : 2 * n / d * 2 ^ t ≤ n * 2 ^ (t + 1) / d := by
      rw [Nat.le_div_iff_mul_le hd]
      calc 2 * n / d * 2 ^ t * d = 2 * n / d * d * 2 ^ t := by ring
        _ ≤ 2 * n * 2 ^ t := Nat.mul_le_mul_right _ (Nat.div_mul_le_self _ _)
        _ = n * 2 ^ (t + 1) := by ring
    calc 2 * n / d * 2 ^ (t + 1) = 2 * (2 * n / d * 2 ^ t) := by ring
      _ ≤ 2 * m := Nat.mul_le_mul_left 2 (hhalves.trans hle)
  · -- The next half is at least `1 / (2 * d)` away, which is more than a unit in the last place.
    have hnext : 2 * n + 1 ≤ (2 * n / d + 1) * d := by
      rw [mul_comm _ d]
      exact Nat.lt_mul_div_succ _ hd
    refine lt_of_mul_lt_mul_right ?_ (Nat.zero_le d)
    calc 2 * m * d ≤ 2 * (n * 2 ^ (t + 1) / d + 1) * d := by gcongr
      _ = 2 * (n * 2 ^ (t + 1) / d * d) + 2 * d := by ring
      _ ≤ 2 * (n * 2 ^ (t + 1)) + 2 * d :=
          Nat.add_le_add_right (Nat.mul_le_mul_left 2 (Nat.div_mul_le_self _ _)) _
      _ < 2 * (n * 2 ^ (t + 1)) + 2 ^ (t + 1) := by gcongr
      _ = (2 * n + 1) * 2 ^ (t + 1) := by ring
      _ ≤ (2 * n / d + 1) * d * 2 ^ (t + 1) := by gcongr
      _ = (2 * n / d + 1) * 2 ^ (t + 1) * d := by ring

lemma nearestNat_eq (h : Approximates n d m e) (hd : 0 < d) (he : e ≤ 0)
    (hlt : 2 * d < 2 ^ (-e).toNat) : nearestNat m e = (2 * n / d + 1) / 2 := by
  rw [nearestNat, Int.toNat_of_nonpos he, zero_add, Nat.shiftLeft_eq, Nat.shiftRight_eq_div_pow,
    pow_one, mul_comm, h.halves_eq hd hlt]

/-- Rounding the quotient twice is rounding it once: down to a half, and a half that is left away
from zero. -/
theorem toInt_roundAway_quotient {sum : Int32} {count : Nat} (hs : sum.toInt = s.apply n)
    (hcount : 0 < count) (hle : count ≤ 2 ^ 20) (hlt : n < 2 ^ 11 * count) :
    (roundAway (quotient sum count)).toInt32.toInt = s.apply ((2 * n / count + 1) / 2 : Nat) := by
  obtain rfl | hn := Nat.eq_zero_or_pos n
  · have hzero : sum.toInt = 0 := by rw [hs]; cases s <;> rfl
    obtain ⟨l, hl, -, hofNat⟩ := exists_ofNat hcount (by omega)
    have hquotient : quotient sum count = .zero .positive := by
      rw [quotient, UnpackedFloat.ofInt32, hzero, hofNat]
      rfl
    rw [hquotient, mul_zero, Nat.zero_div]
    cases s <;> rfl
  · obtain ⟨m, e, h, hquotient, he, happrox⟩ := exists_quotient s hs hn hcount hle hlt
    have hfine : 2 * count < 2 ^ (-e).toNat := by
      calc 2 * count < 2 ^ 41 := by omega
        _ ≤ 2 ^ (-e).toNat := Nat.pow_le_pow_right two_pos (by omega)
    rw [hquotient, roundAway, nearestNat_eq happrox hcount (by omega) hfine]
    apply toInt_toInt32_ofInt
    have hsmall : 2 * n / count < 2 ^ 12 := by
      rw [Nat.div_lt_iff_lt_mul hcount]
      omega
    rw [natAbs_apply]
    omega

end BrailleScore.Binary64
