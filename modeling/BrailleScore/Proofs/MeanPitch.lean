import BrailleScore.Proofs.BinaryQuotient
import BrailleScore.Timeline.Measure
import Mathlib

/-!
# The mean pitch of a voice

The mean pitch is the integer nearest to the mean of the pitch numbers, on both sides of zero, as
long as there are not more than `2 ^ 20` of them: their sum is exact in 32 bits, and the rounding of
the quotient to 53 bits does not show.
-/

namespace BrailleScore

/-! ### The nearest integer -/

/-- The integer nearest to `q`. Of two that are equally near it is the one farther from zero. -/
structure IsNearest (q : ℚ) (k : ℤ) : Prop where
  le : ∀ j : ℤ, |q - k| ≤ |q - j|
  away : ∀ j : ℤ, |q - j| = |q - k| → |j| ≤ |k|

namespace IsNearest

variable {q : ℚ} {k l : ℤ}

lemma unique (h : IsNearest q k) (h' : IsNearest q l) : k = l := by
  have hdist : |q - k| = |q - l| := le_antisymm (h.le l) (h'.le k)
  have habs : |k| = |l| := le_antisymm (h'.away k hdist) (h.away l hdist.symm)
  obtain heq | rfl := abs_eq_abs.mp habs
  · exact heq
  · have hzero : l = 0 := by
      obtain hsame | hopposite := abs_eq_abs.mp hdist
      · push_cast at hsame
        have hl : (l : ℚ) = 0 := by linarith
        exact_mod_cast hl
      · push_cast at hopposite
        have hq : q = 0 := by linarith
        have hl := h'.le 0
        rw [hq, zero_sub, abs_neg, Int.cast_zero, sub_zero, abs_zero] at hl
        exact_mod_cast abs_nonpos_iff.mp hl
    rw [hzero, neg_zero]

lemma neg (h : IsNearest q k) : IsNearest (-q) (-k) := by
  have hreflect (j : ℤ) : |-q - j| = |q - (-j : ℤ)| := by
    rw [← abs_neg, Int.cast_neg]
    congr 1
    ring
  constructor
  · intro j
    rw [hreflect, hreflect, neg_neg]
    exact h.le (-j)
  · intro j hj
    rw [hreflect, hreflect, neg_neg] at hj
    rw [abs_neg, ← abs_neg j]
    exact h.away (-j) hj

lemma le_of_le (h : IsNearest q k) (hl : (l : ℚ) ≤ q) : l ≤ k := by
  by_contra! hlt
  have hlt' : (k : ℚ) < l := by exact_mod_cast hlt
  have hle := h.le l
  rw [abs_of_nonneg (by linarith), abs_of_nonneg (by linarith)] at hle
  linarith

lemma ge_of_ge (h : IsNearest q k) (hl : q ≤ (l : ℚ)) : k ≤ l := by
  rw [← neg_le_neg_iff]
  apply h.neg.le_of_le
  rw [Int.cast_neg]
  exact neg_le_neg hl

lemma of_bounds (hq : 0 ≤ q) (hk : 0 ≤ k) (hle : k - 1 / 2 ≤ q) (hlt : q < k + 1 / 2) :
    IsNearest q k := by
  have hnear : |q - k| ≤ 1 / 2 := abs_le.mpr ⟨by linarith, by linarith⟩
  have hk' : (0 : ℚ) ≤ k := by exact_mod_cast hk
  constructor
  · intro j
    obtain hj | rfl | hj := lt_trichotomy j k
    · have hj' : (j : ℚ) + 1 ≤ k := by exact_mod_cast hj
      exact hnear.trans (le_abs.mpr (.inl (by linarith)))
    · exact le_refl _
    · have hj' : (k : ℚ) + 1 ≤ j := by exact_mod_cast hj
      exact hnear.trans (le_abs.mpr (.inr (by linarith)))
  · intro j hj
    rw [← hj, abs_le] at hnear
    have hlower : -1 < j := by
      have hlower' : ((-1 : ℤ) : ℚ) < j := by push_cast; linarith
      exact_mod_cast hlower'
    have hupper : j < k + 1 := by
      have hupper' : (j : ℚ) < (k + 1 : ℤ) := by push_cast; linarith
      exact_mod_cast hupper'
    rw [abs_of_nonneg hk, abs_le]
    omega

/-- Halves are rounded down first, and then the quotient up to a whole number. -/
lemma of_halves (n : ℕ) {d : ℕ} (hd : 0 < d) :
    IsNearest (n / d) ((2 * n / d + 1) / 2 : ℕ) := by
  obtain ⟨k, hk⟩ : ∃ k, (2 * n / d + 1) / 2 = k := ⟨_, rfl⟩
  have hd' : (0 : ℚ) < d := by exact_mod_cast hd
  have hle : 2 * k ≤ 2 * n / d + 1 := by omega
  have hlower : 2 * k * d ≤ 2 * n + d := by
    calc 2 * k * d ≤ (2 * n / d + 1) * d := Nat.mul_le_mul_right d hle
      _ = 2 * n / d * d + d := by ring
      _ ≤ 2 * n + d := Nat.add_le_add_right (Nat.div_mul_le_self _ _) d
  have hupper : 2 * n < (2 * k + 1) * d := by
    rw [← Nat.div_lt_iff_lt_mul hd]
    omega
  have hlower' : (2 * k * d : ℚ) ≤ 2 * n + d := by exact_mod_cast hlower
  have hupper' : (2 * n : ℚ) < (2 * k + 1) * d := by exact_mod_cast hupper
  rw [hk]
  apply of_bounds
  · positivity
  · exact Int.natCast_nonneg k
  · rw [Int.cast_natCast, le_div_iff₀ hd']
    linarith
  · rw [Int.cast_natCast, div_lt_iff₀ hd']
    linarith

end IsNearest

/-! ### Pitch numbers and their sum -/

lemma Pitch.natAbs_midi_lt (p : Pitch) : p.midi.natAbs < 2 ^ 11 := by
  have hstep : p.step.semitone ≤ 11 := by cases p.step <;> decide
  have hoctave := p.octave.le_toInt
  have hoctave' := p.octave.toInt_lt
  have halter := p.alter.le_toInt
  have halter' := p.alter.toInt_lt
  rw [Pitch.midi]
  omega

namespace Voice

open Float.Model

variable {v w : Voice}

lemma natAbs_lt_of_mem_midis {midi : Int} (h : midi ∈ v.midis) : midi.natAbs < 2 ^ 11 := by
  obtain ⟨e, -, he⟩ := List.mem_filterMap.mp h
  obtain ⟨p, -, rfl⟩ := Option.map_eq_some_iff.mp he
  exact p.natAbs_midi_lt

lemma natAbs_sum_le {midis : List Int} (h : ∀ midi ∈ midis, midi.natAbs < 2 ^ 11) :
    midis.sum.natAbs ≤ (2 ^ 11 - 1) * midis.length := by
  have hlower := midis.card_nsmul_le_sum (-(2 ^ 11 - 1)) fun midi hmidi => by
    have hlt := h midi hmidi
    omega
  have hupper := midis.sum_le_card_nsmul (2 ^ 11 - 1) fun midi hmidi => by
    have hlt := h midi hmidi
    omega
  rw [nsmul_eq_mul] at hlower hupper
  omega

lemma foldl_add_ofInt (midis : List Int) (start : Int32) :
    midis.foldl (fun sum midi => sum + .ofInt midi) start = start + .ofInt midis.sum := by
  induction midis generalizing start with
  | nil => exact (Int32.add_zero start).symm
  | cons midi midis ih =>
    rw [List.foldl_cons, ih, List.sum_cons, Int32.ofInt_add, ← Int32.add_assoc]

lemma midiSum_eq (v : Voice) : v.midiSum = .ofInt v.midis.sum := by
  rw [midiSum, foldl_add_ofInt, Int32.zero_add]

lemma averagePitch_perm (h : w.entries.Perm v.entries) : w.averagePitch = v.averagePitch := by
  have hmidis : w.midis.Perm v.midis := h.filterMap _
  rw [averagePitch, averagePitch, midiSum_eq, midiSum_eq, hmidis.sum_eq, hmidis.length_eq,
    hmidis.isEmpty_eq]

/-- No sum of up to `2 ^ 20` pitch numbers leaves the 32 bits. -/
lemma sum_bounds (hcount : v.midis.length ≤ 2 ^ 20) {seen : List Int} (h : seen <+: v.midis) :
    Int32.minValue.toInt ≤ seen.sum ∧ seen.sum ≤ Int32.maxValue.toInt := by
  have hsum := natAbs_sum_le fun midi hmidi => natAbs_lt_of_mem_midis (h.subset hmidi)
  have hlength := h.length_le
  have hmin : Int32.minValue.toInt = -2 ^ 31 := rfl
  have hmax : Int32.maxValue.toInt = 2 ^ 31 - 1 := rfl
  omega

lemma toInt_midiSum (hcount : v.midis.length ≤ 2 ^ 20) : v.midiSum.toInt = v.midis.sum := by
  obtain ⟨hmin, hmax⟩ := sum_bounds hcount (List.prefix_refl v.midis)
  rw [midiSum_eq]
  exact Int32.toInt_ofInt_of_le hmin (Int.lt_add_one_of_le hmax)

lemma isNearest_averagePitch (hcount : v.midis.length ≤ 2 ^ 20) (hne : v.midis ≠ []) :
    IsNearest (v.midis.sum / v.midis.length) v.averagePitch := by
  have hpos : 0 < v.midis.length := List.length_pos_iff.mpr hne
  have hsum := natAbs_sum_le fun _ => natAbs_lt_of_mem_midis (v := v)
  obtain ⟨s, n, hs⟩ := Binary64.exists_sign v.midis.sum
  have haverage : v.averagePitch = s.apply ((2 * n / v.midis.length + 1) / 2 : ℕ) := by
    rw [averagePitch, List.isEmpty_eq_false_iff.mpr hne, if_neg Bool.false_ne_true]
    rw [hs, Binary64.natAbs_apply] at hsum
    apply Binary64.toInt_roundAway_quotient s _ hpos hcount (by omega)
    rw [toInt_midiSum hcount, hs]
  have hnearest := IsNearest.of_halves n hpos
  rw [haverage, hs]
  cases s with
  | positive => exact hnearest
  | negative =>
    rw [UnpackedFloat.Sign.apply, UnpackedFloat.Sign.apply, Int.cast_neg, neg_div]
    exact hnearest.neg

lemma averagePitch_bounds (hcount : v.midis.length ≤ 2 ^ 20) (hne : v.midis ≠ []) :
    v.midis.min hne ≤ v.averagePitch ∧ v.averagePitch ≤ v.midis.max hne := by
  have hnearest := isNearest_averagePitch hcount hne
  have hpos : (0 : ℚ) < v.midis.length := by exact_mod_cast List.length_pos_iff.mpr hne
  constructor
  · have hlower := v.midis.card_nsmul_le_sum (v.midis.min hne) fun _ => List.min_le_of_mem
    rw [nsmul_eq_mul] at hlower
    apply hnearest.le_of_le
    rw [le_div_iff₀ hpos, mul_comm]
    exact_mod_cast hlower
  · have hupper := v.midis.sum_le_card_nsmul (v.midis.max hne) fun _ => List.le_max_of_mem
    rw [nsmul_eq_mul] at hupper
    apply hnearest.ge_of_ge
    rw [div_le_iff₀ hpos, mul_comm]
    exact_mod_cast hupper

/-- Summing up to `2 ^ 20` pitch numbers never leaves 32 bits, and their mean is rounded to the
nearest integer, a half away from zero. It lies between the least and the greatest of them, and
their order does not matter. -/
theorem averagePitch_exact (v : Voice) (hcount : v.midis.length ≤ 2 ^ 20) :
    (∀ seen, seen <+: v.midis →
      Int32.minValue.toInt ≤ seen.sum ∧ seen.sum ≤ Int32.maxValue.toInt) ∧
    v.midiSum.toInt = v.midis.sum ∧
    (v.midis = [] → v.averagePitch = 0) ∧
    (∀ hne : v.midis ≠ [], IsNearest (v.midis.sum / v.midis.length) v.averagePitch ∧
      v.midis.min hne ≤ v.averagePitch ∧ v.averagePitch ≤ v.midis.max hne) ∧
    ∀ w : Voice, w.entries.Perm v.entries → w.averagePitch = v.averagePitch := by
  refine ⟨fun seen => sum_bounds hcount, toInt_midiSum hcount, fun hnil => ?_, fun hne => ?_,
    fun w => averagePitch_perm⟩
  · rw [averagePitch, hnil]
    rfl
  · exact ⟨isNearest_averagePitch hcount hne, averagePitch_bounds hcount hne⟩

/-- The mean of two flattened notes, a half below minus one; neither a rest nor a note that is only
displayed has a part in it. -/
theorem averagePitch_exact_of_two_below_zero :
    let flat (alter : Int8) : Entry :=
      .note { pitch := some ⟨.c, alter, -1⟩, duration := { base := .quarter }, voice := "1" }
    let displayed : Entry :=
      .note { display := some ⟨.g, 0, 9⟩, duration := { base := .quarter }, voice := "1" }
    let rest : Entry := .rest { duration := { base := .quarter }, voice := "1" }
    let v : Voice := ⟨"1", [flat (-1), rest, displayed, flat (-2)]⟩
    let w : Voice := ⟨"2", [displayed, flat (-2), flat (-1), rest]⟩
    v.midis = [-1, -2] ∧ v.midis.length ≤ 2 ^ 20 ∧ v.midiSum.toInt = -3 ∧
      IsNearest (-(3 / 2)) v.averagePitch ∧ v.averagePitch = -2 ∧ w.averagePitch = -2 := by
  intro flat displayed rest v w
  have hmidis : v.midis = [-1, -2] := by decide
  have hcount : v.midis.length ≤ 2 ^ 20 := by decide
  obtain ⟨-, hsum, -, hmean, hperm⟩ := averagePitch_exact v hcount
  obtain ⟨hnearest, -, -⟩ := hmean (by decide)
  have hquotient : (v.midis.sum / v.midis.length : ℚ) = -(3 / 2) := by
    rw [hmidis]
    norm_num
  rw [hquotient] at hnearest
  have hhalf : IsNearest (-(3 / 2)) (-2) := (IsNearest.of_halves 3 two_pos).neg
  have haverage : v.averagePitch = -2 := hnearest.unique hhalf
  refine ⟨hmidis, hcount, hsum, hnearest, haverage, ?_⟩
  rw [← haverage]
  exact hperm w (by decide)

end Voice

end BrailleScore
