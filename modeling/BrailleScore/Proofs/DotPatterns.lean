import BrailleScore.Cell
import BrailleScore.Proofs.DecimalDigits

/-!
# Dot patterns

A dot pattern raises exactly the dots that its digits name, in whatever order and however often.
The pattern of the cell names them once each and in ascending order.
-/

namespace BrailleScore.Cell

variable {p : Nat}

lemma isDot_iff {d : Fin 10} : isDot d ↔ 1 ≤ d.val ∧ d.val ≤ 6 := by
  simp [isDot]

lemma isPattern_iff : isPattern p ↔ ∀ d ∈ Nat.digits 10 p, 1 ≤ d ∧ d ≤ 6 := by
  simp only [isPattern, List.all_eq_true, isDot_iff, ← Decimal.map_val_places, List.forall_mem_map]

/-! ### The dots of a pattern -/

lemma getLsbD_dotMask (d : Fin 10) (i : Nat) :
    (dotMask d).getLsbD i = (isDot d && decide (d.val = i + 1)) := by
  by_cases hi : i < 8
  · have hmask : ∀ (d : Fin 10) (i : Fin 8),
        (dotMask d).getLsbD i.val = (isDot d && decide (d.val = i.val + 1)) := by decide
    exact hmask d ⟨i, hi⟩
  · -- Beyond the width of the mask there is no dot either.
    rw [BitVec.getLsbD_of_ge _ _ (Nat.le_of_not_lt hi), eq_comm, Bool.and_eq_false_iff]
    by_cases hd : isDot d
    · have hsix := (isDot_iff.mp hd).2
      exact .inr (decide_eq_false (by omega))
    · exact .inl (Bool.eq_false_of_not_eq_true hd)

lemma getLsbD_foldr (ds : List (Fin 10)) (i : Nat) :
    (ds.foldr (fun d mask => dotMask d ||| mask) 0#8).getLsbD i ↔
      ∃ d ∈ ds, isDot d ∧ d.val = i + 1 := by
  induction ds with
  | nil => simp
  | cons d ds ih =>
    rw [List.foldr_cons, BitVec.getLsbD_or, Bool.or_eq_true, ih, getLsbD_dotMask,
      Bool.and_eq_true, decide_eq_true_iff, List.exists_mem_cons_iff]

/-- A bit is set in the mask of a pattern exactly when the pattern has its dot among the digits. -/
lemma getLsbD_ofPattern (h : isPattern p) (i : Nat) :
    (ofPattern p).mask.getLsbD i ↔ i + 1 ∈ Nat.digits 10 p := by
  have hdots := isPattern_iff.mp h
  rw [← Decimal.map_val_places] at hdots ⊢
  rw [ofPattern, getLsbD_foldr, List.mem_map]
  constructor
  · rintro ⟨d, hd, -, hval⟩
    exact ⟨d, hd, hval⟩
  · rintro ⟨d, hd, hval⟩
    exact ⟨d, hd, isDot_iff.mpr (hdots d.val (List.mem_map_of_mem hd)), hval⟩

/-! ### The pattern of a cell -/

lemma reverse_digits_pattern (c : Cell) : (Nat.digits 10 c.pattern).reverse =
    ((List.finRange 10).filter fun d => isDot d && c.hasDot d.val).map Fin.val := by
  rw [pattern, Decimal.digits_ofDigits, List.reverse_reverse]
  intro h
  have hzero : isDot 0 && c.hasDot 0 := (List.mem_filter.mp (List.mem_of_mem_head? h)).2
  simp [isDot] at hzero

lemma pairwise_digits_pattern (c : Cell) :
    (Nat.digits 10 c.pattern).reverse.Pairwise (· < ·) := by
  rw [reverse_digits_pattern]
  exact List.pairwise_map.mpr ((List.pairwise_lt_finRange 10).filter _)

lemma mem_digits_pattern {c : Cell} {d : Nat} :
    d ∈ Nat.digits 10 c.pattern ↔ (1 ≤ d ∧ d ≤ 6) ∧ c.hasDot d := by
  rw [← List.mem_reverse, reverse_digits_pattern, List.mem_map]
  constructor
  · rintro ⟨d, hd, rfl⟩
    obtain ⟨hdot, hc⟩ := Bool.and_eq_true_iff.mp (List.mem_filter.mp hd).2
    exact ⟨isDot_iff.mp hdot, hc⟩
  · rintro ⟨hdot, hc⟩
    refine ⟨⟨d, by omega⟩, List.mem_filter.mpr ⟨List.mem_finRange _, ?_⟩, rfl⟩
    exact Bool.and_eq_true_iff.mpr ⟨isDot_iff.mpr hdot, hc⟩

lemma pattern_eq_iff {c : Cell} (h : (Nat.digits 10 c.pattern).reverse = Decimal.ascending p) :
    c.pattern = p ↔ (Nat.digits 10 p).reverse.Pairwise (· < ·) := by
  rw [← Decimal.ascending_eq_iff, ← h, List.reverse_inj, Nat.digits_inj_iff]

/-- The pattern of the cell of a pattern has the same digits, in ascending order. -/
lemma reverse_digits_pattern_ofPattern (h : isPattern p) :
    (Nat.digits 10 (ofPattern p).pattern).reverse = Decimal.ascending p := by
  have hascending := pairwise_digits_pattern (ofPattern p)
  have hdigits : ∀ d, d ∈ Nat.digits 10 (ofPattern p).pattern ↔ d ∈ Nat.digits 10 p := by
    intro d
    rw [mem_digits_pattern]
    constructor
    · rintro ⟨⟨hd, -⟩, hdot⟩
      have hbit := (getLsbD_ofPattern h (d - 1)).mp (Bool.and_eq_true_iff.mp hdot).2
      rwa [Nat.sub_add_cancel hd] at hbit
    · intro hd
      have hrange := isPattern_iff.mp h d hd
      refine ⟨hrange, Bool.and_eq_true_iff.mpr ⟨decide_eq_true hrange.1, ?_⟩⟩
      rw [getLsbD_ofPattern h, Nat.sub_add_cancel hrange.1]
      exact hd
  rw [← (Decimal.ascending_eq_iff _).mpr hascending, Decimal.ascending, Decimal.ascending]
  congr 1
  ext d
  rw [List.mem_toFinset, List.mem_toFinset, hdigits]

/-- A pattern has a cell just if it is zero or all its digits are dots. The dots of the cell are the
digits of the pattern, and its own pattern has these digits once each and in ascending order, so
that it is the same only if they ascend already. -/
theorem ofPattern?_dots (p : Nat) :
    ((ofPattern? p).isSome ↔ p = 0 ∨ ∀ d ∈ Nat.digits 10 p, 1 ≤ d ∧ d ≤ 6) ∧
    (∀ c, ofPattern? p = some c →
      (∀ i, c.mask.getLsbD i ↔ i + 1 ∈ Nat.digits 10 p) ∧
      (Nat.digits 10 c.pattern).reverse = Decimal.ascending p) ∧
    ((ofPattern? p).map pattern = some p ↔
      p = 0 ∨ (∀ d ∈ Nat.digits 10 p, 1 ≤ d ∧ d ≤ 6) ∧
        (Nat.digits 10 p).reverse.Pairwise (· < ·)) := by
  have hzero : p = 0 → (∀ d ∈ Nat.digits 10 p, 1 ≤ d ∧ d ≤ 6) ∧
      (Nat.digits 10 p).reverse.Pairwise (· < ·) := by
    rintro rfl
    simp
  rw [or_iff_right_of_imp fun h => (hzero h).1, or_iff_right_of_imp hzero, ← isPattern_iff]
  by_cases h : isPattern p
  · have hascending := reverse_digits_pattern_ofPattern h
    rw [ofPattern?, if_pos h]
    refine ⟨by simp [h], ?_, ?_⟩
    · rintro c hc
      obtain rfl := Option.some.inj hc
      exact ⟨getLsbD_ofPattern h, hascending⟩
    · rw [Option.map_some, Option.some_inj, pattern_eq_iff hascending, and_iff_right h]
  · rw [ofPattern?, if_neg h]
    simp [h]

/-- Digits that are neither in order nor different. -/
theorem ofPattern?_dots_of_repeated :
    ofPattern? 6216 = some ⟨0b100011#8⟩ ∧
      (∀ i, (0b100011#8).getLsbD i ↔ i + 1 ∈ Nat.digits 10 6216) ∧
      (Nat.digits 10 126).reverse = Decimal.ascending 6216 ∧
      (ofPattern? 6216).map pattern ≠ some 6216 := by
  obtain ⟨-, hcell, hback⟩ := ofPattern?_dots 6216
  have hsome : ofPattern? 6216 = some ⟨0b100011#8⟩ := by decide +kernel
  obtain ⟨hdots, hascending⟩ := hcell _ hsome
  refine ⟨hsome, hdots, hascending, fun h => ?_⟩
  have hascends := hback.mp h
  norm_num at hascends

end BrailleScore.Cell
