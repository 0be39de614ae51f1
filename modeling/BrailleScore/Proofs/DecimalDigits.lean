import Mathlib.Data.Finset.Sort
import Mathlib.Data.Nat.Digits.Lemmas
import Mathlib.Tactic.Lemma
import BrailleScore.Text.Decimal

/-!
# Decimal digits

The digits of a number are those of its representation to base ten, units last. A row of digits
that does not begin with a zero is the one that its number is written with.
-/

namespace BrailleScore.Decimal

lemma map_val_places (n : Nat) : (places n).map Fin.val = Nat.digits 10 n := by
  induction n using Nat.strongRecOn with
  | ind n ih =>
    obtain rfl | h := Nat.eq_zero_or_pos n
    · rfl
    · rw [places_of_pos h, List.map_cons, ih _ (by omega), Nat.digits_def' (by omega) h]
      rfl

lemma ofDigits_eq (ds : List (Fin 10)) :
    ofDigits ds = Nat.ofDigits 10 (ds.map Fin.val).reverse := by
  induction ds using List.reverseRecOn with
  | nil => rfl
  | append_singleton ds d ih =>
    rw [ofDigits_append_singleton, ih, List.map_append, List.map_singleton, List.reverse_append,
      List.reverse_singleton, List.singleton_append, Nat.ofDigits_cons]
    exact Nat.add_comm _ _

lemma digits_ofDigits {ds : List (Fin 10)} (h : ds.head? ≠ some 0) :
    Nat.digits 10 (ofDigits ds) = (ds.map Fin.val).reverse := by
  rw [ofDigits_eq]
  refine Nat.digits_ofDigits 10 (by omega) _ ?_ fun hne hlast => h ?_
  · intro n hn
    obtain ⟨d, -, rfl⟩ := List.mem_map.mp (List.mem_reverse.mp hn)
    exact d.isLt
  · cases ds with
    | nil => exact absurd rfl hne
    | cons d ds =>
      have hzero : d.val = 0 := by simpa using hlast
      exact congrArg some (Fin.ext hzero)

lemma digits_ne_nil (n : Nat) : digits n ≠ [] := by
  unfold digits
  split
  · exact List.cons_ne_nil _ _
  · next h =>
    rw [places_of_pos (Nat.pos_of_ne_zero h)]
    simp

lemma head?_digits {n : Nat} : (digits n).head? = some 0 ↔ n = 0 := by
  constructor
  · intro h
    by_contra hn
    rw [digits, if_neg hn, List.head?_reverse] at h
    have hlast : (Nat.digits 10 n).getLast? = some 0 := by
      rw [← map_val_places, List.getLast?_map, h]
      rfl
    exact Nat.getLast_digit_ne_zero 10 hn ((List.getLast_eq_iff_getLast?_eq_some _).mpr hlast)
  · rintro rfl
    rfl

lemma digitChar_eq (d : Fin 10) : digitChar d = Nat.digitChar d.val := by
  revert d
  decide

lemma text_eq_toDigits (n : Nat) : text n = Nat.toDigits 10 n := by
  induction n using Nat.strongRecOn with
  | ind n ih =>
    obtain rfl | hpos := Nat.eq_zero_or_pos n
    · rfl
    · have htext : text n = (places (n / 10)).reverse.map digitChar ++ [Nat.digitChar (n % 10)] := by
        rw [text, digits, if_neg (by omega), places_of_pos hpos, List.reverse_cons, List.map_append,
          List.map_singleton, digitChar_eq]
        rfl
      by_cases hsmall : n < 10
      · have hzero : n / 10 = 0 := by omega
        rw [htext, hzero, Nat.mod_eq_of_lt hsmall, Nat.toDigits_of_lt_base hsmall]
        rfl
      · have hfront := ih (n / 10) (by omega)
        rw [text, digits, if_neg (by omega)] at hfront
        have hlarge : 10 ≤ n := by omega
        rw [htext, hfront, Nat.toDigits_of_base_le (by omega) hlarge]

/-- Numerals are those of the standard library. -/
lemma signed_eq_toString (n : Int) : String.ofList (signed n) = toString n := by
  cases n with
  | ofNat n =>
    have hsign : ¬ Int.ofNat n < 0 := Int.not_lt.mpr (Int.natCast_nonneg n)
    rw [signed, if_neg hsign, text_eq_toDigits]
    rfl
  | negSucc n =>
    rw [signed, if_pos (Int.negSucc_lt_zero n), text_eq_toDigits, String.ofList_cons]
    rfl

/-- The digits of a number, once each and in ascending order. -/
def ascending (n : Nat) : List Nat := (Nat.digits 10 n).toFinset.sort (· ≤ ·)

lemma ascending_eq_iff (n : Nat) : ascending n = (Nat.digits 10 n).reverse ↔
    (Nat.digits 10 n).reverse.Pairwise (· < ·) := by
  have hset : (Nat.digits 10 n).toFinset = (Nat.digits 10 n).reverse.toFinset :=
    List.toFinset_reverse.symm
  constructor
  · intro h
    rw [← h]
    exact (Finset.sortedLT_sort _).pairwise
  · intro h
    rw [ascending, hset]
    exact (List.toFinset_sort _ (h.imp Nat.ne_of_lt)).mpr (h.imp Nat.le_of_lt)

end BrailleScore.Decimal
