import Mathlib.Tactic.Lemma
import BrailleScore.Proofs.DecimalDigits
import BrailleScore.Sign.Repetition

/-!
# Numbers in upper digits

A number is read back from the cells of its digits, so that a count is told by its cells alone.
-/

namespace BrailleScore.Glyph

/-- The digit that a cell stands for. -/
def readDigit? (c : Char) : Option (Fin 10) := (List.finRange 10).find? fun d => (digit d).text = [c]

/-- The number that a row of digits stands for, units last. -/
def readNumber? (cs : List Char) : Option Nat := (cs.mapM readDigit?).map Decimal.ofDigits

lemma text_digit (d : Fin 10) : (digit d).text = [(digit d).firstCell.char] := by
  revert d
  decide +kernel

/-- No two digits have the same cell. -/
lemma readDigit?_digit (d : Fin 10) : readDigit? (digit d).firstCell.char = some d := by
  revert d
  decide +kernel

lemma upperNumber_eq_map (n : Nat) :
    upperNumber n = (Decimal.digits n).map fun d => (digit d).firstCell.char := by
  simp only [upperNumber, text_digit, List.map_eq_flatMap]

lemma mapM_readDigit? (ds : List (Fin 10)) :
    (ds.map fun d => (digit d).firstCell.char).mapM readDigit? = some ds := by
  induction ds with
  | nil => rfl
  | cons d ds ih => simp [readDigit?_digit, ih]

lemma readNumber?_upperNumber (n : Nat) : readNumber? (upperNumber n) = some n := by
  rw [readNumber?, upperNumber_eq_map, mapM_readDigit?, Option.map_some, Decimal.ofDigits_digits]

lemma upperNumber_injective : Function.Injective upperNumber := by
  intro m n h
  have hread := readNumber?_upperNumber m
  rw [h, readNumber?_upperNumber] at hread
  exact (Option.some.inj hread).symm

lemma zero_prefix_upperNumber {n : Nat} : (digit 0).text <+: upperNumber n ↔ n = 0 := by
  have hinjective : Function.Injective fun d => (digit d).firstCell.char := by
    intro d d' h
    simpa only [readDigit?_digit, Option.some_inj] using congrArg readDigit? h
  rw [text_digit, List.singleton_prefix_iff_head?_eq_some, upperNumber_eq_map, List.head?_map,
    ← Decimal.head?_digits]
  exact (Option.map_injective hinjective).eq_iff' rfl

/-- A number has one or more cells, all of upper digits. It begins with a zero only if it is zero,
and it is read back from its cells, which no other number has. From four on it counts copies of a
single atom. -/
theorem upperNumber_reads (n : Nat) :
    upperNumber n ≠ [] ∧ (∀ c ∈ upperNumber n, ∃ d, (digit d).text = [c]) ∧
    ((digit 0).text <+: upperNumber n ↔ n = 0) ∧ readNumber? (upperNumber n) = some n ∧
    (∀ m, upperNumber m = upperNumber n → m = n) ∧
    (4 ≤ n → ∀ atom, Repetition.write atom n = numberSign.text ++ upperNumber n ++ atom) := by
  refine ⟨?_, ?_, zero_prefix_upperNumber, readNumber?_upperNumber n,
    fun m h => upperNumber_injective h, fun h atom => ?_⟩
  · rw [upperNumber_eq_map]
    exact fun h => Decimal.digits_ne_nil n (List.map_eq_nil_iff.mp h)
  · intro c hc
    rw [upperNumber_eq_map] at hc
    obtain ⟨d, -, rfl⟩ := List.mem_map.mp hc
    exact ⟨d, text_digit d⟩
  · rw [Repetition.write, if_neg (Nat.not_lt.mpr h)]

/-- Sixteen times an atom that is the cell of a digit itself. -/
theorem upperNumber_reads_sixteen :
    4 ≤ 16 ∧ Repetition.write (digit 5).text 16 =
        numberSign.text ++ ((digit 1).text ++ (digit 6).text) ++ (digit 5).text ∧
      readNumber? ((digit 1).text ++ (digit 6).text) = some 16 := by
  obtain ⟨-, -, -, hread, -, hcount⟩ := upperNumber_reads 16
  have hcells : upperNumber 16 = (digit 1).text ++ (digit 6).text := by decide +kernel
  rw [hcells] at hread hcount
  exact ⟨by decide, hcount (by decide) _, hread⟩

end BrailleScore.Glyph
