/-! Decimal digits of a number and the text that they spell. -/

namespace BrailleScore.Decimal

def placesUpTo : Nat → Nat → List (Fin 10)
  | 0, _ => []
  | fuel + 1, n => if n = 0 then [] else Fin.ofNat 10 n :: placesUpTo fuel (n / 10)

/-- The digits of `n`, units first. Zero has none. -/
def places (n : Nat) : List (Fin 10) := placesUpTo n n

theorem placesUpTo_eq_places {fuel n : Nat} (h : n ≤ fuel) : placesUpTo fuel n = places n := by
  induction n using Nat.strongRecOn generalizing fuel with
  | ind n ih =>
    obtain _ | m := n
    · cases fuel <;> simp [places, placesUpTo]
    · obtain _ | f := fuel
      · omega
      · have hlt : (m + 1) / 10 < m + 1 := by omega
        rw [places, placesUpTo, placesUpTo, ih _ hlt (by omega), ih _ hlt (by omega)]

theorem places_of_pos {n : Nat} (h : 0 < n) :
    places n = Fin.ofNat 10 n :: places (n / 10) := by
  obtain _ | m := n
  · omega
  · rw [places, placesUpTo, if_neg (by omega), placesUpTo_eq_places (by omega)]

/-- The digits that `n` is written with, units last. Zero is written with one digit. -/
def digits (n : Nat) : List (Fin 10) := if n = 0 then [0] else (places n).reverse

/-- The number written with the given digits, units last. -/
def ofDigits (ds : List (Fin 10)) : Nat := ds.foldl (fun n d => 10 * n + d.val) 0

theorem ofDigits_append_singleton (ds : List (Fin 10)) (d : Fin 10) :
    ofDigits (ds ++ [d]) = 10 * ofDigits ds + d.val := by
  simp [ofDigits, List.foldl_append]

theorem ofDigits_reverse_places (n : Nat) : ofDigits (places n).reverse = n := by
  induction n using Nat.strongRecOn with
  | ind n ih =>
    obtain rfl | h := Nat.eq_zero_or_pos n
    · rfl
    · rw [places_of_pos h, List.reverse_cons, ofDigits_append_singleton, ih _ (by omega)]
      simp only [Fin.ofNat]
      omega

/-- The digits of a number write that number. -/
theorem ofDigits_digits (n : Nat) : ofDigits (digits n) = n := by
  by_cases h : n = 0
  · simp [digits, ofDigits, h]
  · rw [digits, if_neg h, ofDigits_reverse_places]

def digitChar (d : Fin 10) : Char := Char.ofNat ('0'.toNat + d.val)

def digit? (c : Char) : Option (Fin 10) :=
  if '0' ≤ c ∧ c ≤ '9' then some (Fin.ofNat 10 (c.toNat - '0'.toNat)) else none

/-- `n` in decimal. -/
def text (n : Nat) : List Char := (digits n).map digitChar

/-- `n` in decimal, with a minus sign in front of a negative number. -/
def signed (n : Int) : List Char := if n < 0 then '-' :: text n.natAbs else text n.natAbs

end BrailleScore.Decimal
