import Mathlib.Algebra.Order.Field.Rat
import Mathlib.Data.Rat.Floor
import Mathlib.Order.Compare
import Mathlib.Tactic.FieldSimp
import Mathlib.Tactic.Lemma
import Mathlib.Tactic.Linarith
import BrailleScore.Music.Offset

/-!
# The order of offsets

Offsets are compared by their integral parts and, where these agree, by the reciprocals of what is
left. On positive denominators this is the order of the ratios, whether or not they are reduced, and
on all denominators they are found equal just if the ratios are.
-/

namespace BrailleScore.Offset

/-- The number of whole notes. -/
def ratio (a : Offset) : ℚ := a.numerator / a.denominator

/-- What is left of the ratio above its integral part. -/
def rest (a : Offset) : ℚ := a.numerator.fmod a.denominator / a.denominator

variable {a b : Offset}

lemma ratio_eq_add_rest (a : Offset) :
    a.ratio = a.numerator.fdiv a.denominator + a.rest := by
  have hne : (a.denominator : ℚ) ≠ 0 := Int.cast_ne_zero.mpr a.denominator_ne_zero
  have hsplit : (a.numerator : ℚ) = a.numerator.fmod a.denominator +
      a.denominator * a.numerator.fdiv a.denominator := by
    exact_mod_cast (Int.fmod_add_mul_fdiv a.numerator a.denominator).symm
  rw [ratio, rest]
  field_simp
  linarith

/-- The integral part of a ratio is the floored quotient, whatever sign the denominator has. -/
lemma fdiv_eq_floor (a : Offset) : a.numerator.fdiv a.denominator = ⌊a.ratio⌋ := by
  have hpositive (n : ℤ) (d : ℕ) : n.fdiv d = ⌊(n : ℚ) / d⌋ := by
    rw [Int.fdiv_eq_ediv_of_nonneg n d.cast_nonneg]
    exact (Rat.floor_intCast_div_natCast n d).symm
  rw [ratio]
  obtain ⟨d, hd | hd⟩ := a.denominator.eq_nat_or_neg
  · rw [hd, hpositive, Int.cast_natCast]
  · rw [hd, ← Int.neg_fdiv_neg, neg_neg, hpositive, Int.cast_neg, Int.cast_neg, Int.cast_natCast,
      neg_div, div_neg]

lemma rest_nonneg (a : Offset) : 0 ≤ a.rest := by
  have hfloor := Int.floor_le a.ratio
  rw [← fdiv_eq_floor] at hfloor
  linarith [ratio_eq_add_rest a]

lemma rest_eq_zero : a.rest = 0 ↔ a.numerator.fmod a.denominator = 0 := by
  have hne : (a.denominator : ℚ) ≠ 0 := Int.cast_ne_zero.mpr a.denominator_ne_zero
  rw [rest, div_eq_zero_iff, Int.cast_eq_zero, or_iff_left hne]

lemma rest_pos (hne : a.numerator.fmod a.denominator ≠ 0) : 0 < a.rest :=
  lt_of_le_of_ne (rest_nonneg a) (Ne.symm (rest_eq_zero.not.mpr hne))

lemma ratio_lt_of_fdiv_lt
    (h : a.numerator.fdiv a.denominator < b.numerator.fdiv b.denominator) : a.ratio < b.ratio := by
  rw [fdiv_eq_floor, fdiv_eq_floor] at h
  exact Int.floor_mono.reflect_lt h

lemma ratio_lt_ratio (ha : 0 < a.denominator) (hb : 0 < b.denominator) :
    a.ratio < b.ratio ↔ a.numerator * b.denominator < b.numerator * a.denominator := by
  rw [ratio, ratio, div_lt_div_iff₀ (by exact_mod_cast ha) (by exact_mod_cast hb)]
  exact_mod_cast Iff.rfl

/-- The reciprocal of what is left of a ratio, which the comparison goes on with. -/
lemma ratio_swap (a : Offset) (h : a.numerator.fmod a.denominator ≠ 0) :
    ratio ⟨a.denominator, a.numerator.fmod a.denominator, h⟩ = a.rest⁻¹ := (inv_div _ _).symm

lemma compares_of_int {m n : Int} {q r : ℚ} (hlt : m < n → q < r) (heq : m = n → q = r)
    (hgt : n < m → r < q) : (Ord.compare m n).Compares q r := by
  cases h : Ord.compare m n with
  | lt => exact hlt (compare_lt_iff_lt.mp h)
  | eq => exact heq (compare_eq_iff_eq.mp h)
  | gt => exact hgt (compare_gt_iff_gt.mp h)

lemma compares_of_inv {o : Ordering} {k q r : ℚ} (hq : 0 < q) (hr : 0 < r)
    (h : o.Compares r⁻¹ q⁻¹) : o.Compares (k + q) (k + r) := by
  cases o with
  | lt => exact add_lt_add_right ((inv_lt_inv₀ hr hq).mp h) k
  | eq => exact congrArg (k + ·) (inv_injective h).symm
  | gt => exact add_lt_add_right ((inv_lt_inv₀ hq hr).mp h) k

theorem compares_ratio (ha : 0 < a.denominator) (hb : 0 < b.denominator) :
    (a.compare b).Compares a.ratio b.ratio := by
  fun_induction compare a b with
  | case1 a b hden hneg => omega
  | case2 a b hden hneg =>
    apply compares_of_int
    · intro h
      rw [ratio_lt_ratio ha hb, hden]
      exact mul_lt_mul_of_pos_right h hb
    · intro h
      rw [ratio, ratio, hden, h]
    · intro h
      rw [ratio_lt_ratio hb ha, hden]
      exact mul_lt_mul_of_pos_right h hb
  | case3 a b hden hnum hzero =>
    change a.ratio = b.ratio
    rw [ratio, ratio, ← hnum, hzero, Int.cast_zero, zero_div, zero_div]
  | case4 a b hden hnum hzero hneg =>
    apply compares_of_int
    · intro h
      rw [ratio_lt_ratio ha hb, ← hnum]
      exact mul_lt_mul_of_neg_left h hneg
    · exact fun h => absurd h hden
    · intro h
      rw [ratio_lt_ratio hb ha, ← hnum]
      exact mul_lt_mul_of_neg_left h hneg
  | case5 a b hden hnum hzero hneg =>
    have hpos : 0 < a.numerator := by omega
    apply compares_of_int
    · intro h
      rw [ratio_lt_ratio ha hb, ← hnum]
      exact mul_lt_mul_of_pos_left h hpos
    · exact fun h => absurd h.symm hden
    · intro h
      rw [ratio_lt_ratio hb ha, ← hnum]
      exact mul_lt_mul_of_pos_left h hpos
  | case6 a b hden hnum hfloor => exact ratio_lt_of_fdiv_lt (compare_lt_iff_lt.mp hfloor)
  | case7 a b hden hnum hfloor => exact ratio_lt_of_fdiv_lt (compare_gt_iff_gt.mp hfloor)
  | case8 a b hden hnum hfloor hra hrb =>
    change a.ratio = b.ratio
    rw [ratio_eq_add_rest, ratio_eq_add_rest, rest_eq_zero.mpr hra, rest_eq_zero.mpr hrb,
      compare_eq_iff_eq.mp hfloor]
  | case9 a b hden hnum hfloor hra hrb =>
    change a.ratio < b.ratio
    rw [ratio_eq_add_rest, ratio_eq_add_rest, rest_eq_zero.mpr hra, compare_eq_iff_eq.mp hfloor]
    exact add_lt_add_right (rest_pos hrb) _
  | case10 a b hden hnum hfloor hra hrb =>
    change b.ratio < a.ratio
    rw [ratio_eq_add_rest, ratio_eq_add_rest, rest_eq_zero.mpr hrb, compare_eq_iff_eq.mp hfloor]
    exact add_lt_add_right (rest_pos hra) _
  | case11 a b hden hnum hfloor hra hrb ih =>
    have hpos (c : Offset) (hc : 0 < c.denominator) (hne : c.numerator.fmod c.denominator ≠ 0) :
        0 < c.numerator.fmod c.denominator :=
      lt_of_le_of_ne (Int.fmod_nonneg_of_pos c.numerator hc) (Ne.symm hne)
    have hrest := ih (hpos b hb hrb) (hpos a ha hra)
    rw [ratio_swap, ratio_swap] at hrest
    rw [ratio_eq_add_rest a, ratio_eq_add_rest b, compare_eq_iff_eq.mp hfloor]
    exact compares_of_inv (rest_pos hra) (rest_pos hrb) hrest

lemma ratio_inj_of_denominator (h : a.denominator = b.denominator) :
    a.ratio = b.ratio ↔ a.numerator = b.numerator := by
  have hne : (b.denominator : ℚ) ≠ 0 := Int.cast_ne_zero.mpr b.denominator_ne_zero
  rw [ratio, ratio, h, div_left_inj' hne, Int.cast_inj]

lemma ratio_inj_of_numerator (h : a.numerator = b.numerator) (hzero : a.numerator ≠ 0) :
    a.ratio = b.ratio ↔ a.denominator = b.denominator := by
  have hne : (a.numerator : ℚ) ≠ 0 := Int.cast_ne_zero.mpr hzero
  rw [ratio, ratio, ← h, div_eq_mul_inv, div_eq_mul_inv, mul_right_inj' hne, inv_inj, Int.cast_inj]

lemma ratio_inj_of_fdiv (h : a.numerator.fdiv a.denominator = b.numerator.fdiv b.denominator) :
    a.ratio = b.ratio ↔ a.rest = b.rest := by
  rw [ratio_eq_add_rest a, ratio_eq_add_rest b, h, add_right_inj]

/-- Offsets are compared as equal exactly when they are as many whole notes from the start,
whatever signs the denominators have. -/
theorem same_iff : a.same b ↔ a.ratio = b.ratio := by
  rw [same, decide_eq_true_eq]
  fun_induction compare a b with
  | case1 a b hden hneg => rw [compare_eq_iff_eq, ratio_inj_of_denominator hden, eq_comm]
  | case2 a b hden hneg => rw [compare_eq_iff_eq, ratio_inj_of_denominator hden]
  | case3 a b hden hnum hzero => simp [ratio, ← hnum, hzero]
  | case4 a b hden hnum hzero hneg => rw [compare_eq_iff_eq, ratio_inj_of_numerator hnum hzero]
  | case5 a b hden hnum hzero hneg =>
    rw [compare_eq_iff_eq, ratio_inj_of_numerator hnum hzero, eq_comm]
  | case6 a b hden hnum hfloor =>
    have hlt := ratio_lt_of_fdiv_lt (compare_lt_iff_lt.mp hfloor)
    simpa using hlt.ne
  | case7 a b hden hnum hfloor =>
    have hlt := ratio_lt_of_fdiv_lt (compare_gt_iff_gt.mp hfloor)
    simpa using hlt.ne'
  | case8 a b hden hnum hfloor hra hrb =>
    rw [ratio_inj_of_fdiv (compare_eq_iff_eq.mp hfloor), rest_eq_zero.mpr hra,
      rest_eq_zero.mpr hrb]
    simp
  | case9 a b hden hnum hfloor hra hrb =>
    rw [ratio_inj_of_fdiv (compare_eq_iff_eq.mp hfloor), rest_eq_zero.mpr hra]
    simpa using (rest_pos hrb).ne
  | case10 a b hden hnum hfloor hra hrb =>
    rw [ratio_inj_of_fdiv (compare_eq_iff_eq.mp hfloor), rest_eq_zero.mpr hrb]
    simpa using (rest_pos hra).ne'
  | case11 a b hden hnum hfloor hra hrb ih =>
    rw [ih, ratio_inj_of_fdiv (compare_eq_iff_eq.mp hfloor), ratio_swap b hrb, ratio_swap a hra,
      inv_inj, eq_comm]

/-- Not coming after an offset means being at most as many whole notes from the start. -/
theorem atMost_iff (ha : 0 < a.denominator) (hb : 0 < b.denominator) :
    a.atMost b ↔ a.ratio ≤ b.ratio := by
  rw [← (compares_ratio ha hb).ne_gt, atMost]
  cases a.compare b <;> decide

end BrailleScore.Offset
