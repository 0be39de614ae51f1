/-!
Offsets in whole notes from the start of a part, and the order in which changes of clef and key
take effect.
-/

namespace BrailleScore

/-- A ratio as it was written: not reduced, with a denominator of either sign. -/
structure Offset where
  numerator : Int := 0
  denominator : Int := 1
  denominator_ne_zero : denominator ≠ 0 := by decide
deriving DecidableEq, Repr

namespace Offset

theorem natAbs_fmod_lt (n : Int) {d : Int} (hd : d ≠ 0) : (n.fmod d).natAbs < d.natAbs := by
  have hpos := Int.emod_nonneg n hd
  have hlt := Int.emod_lt n hd
  have hdvd : d ∣ n ↔ n % d = 0 := Int.dvd_iff_emod_eq_zero
  rw [Int.fmod_eq_emod]
  split <;> omega

/-- Compares the integral parts of two offsets and, where these agree, the reciprocals of what is
left, the other way round. Equal denominators and equal numerators are decided at once. On
positive denominators this is the order of the ratios. -/
def compare (a b : Offset) : Ordering :=
  if a.denominator = b.denominator then
    if a.denominator < 0 then Ord.compare b.numerator a.numerator
    else Ord.compare a.numerator b.numerator
  else if a.numerator = b.numerator then
    if a.numerator = 0 then .eq
    else if a.numerator < 0 then Ord.compare a.denominator b.denominator
    else Ord.compare b.denominator a.denominator
  else
    match Ord.compare (a.numerator.fdiv a.denominator) (b.numerator.fdiv b.denominator) with
    | .lt => .lt
    | .gt => .gt
    | .eq =>
      if ha : a.numerator.fmod a.denominator = 0 then
        if b.numerator.fmod b.denominator = 0 then .eq else .lt
      else if hb : b.numerator.fmod b.denominator = 0 then .gt
      else compare ⟨b.denominator, b.numerator.fmod b.denominator, hb⟩
        ⟨a.denominator, a.numerator.fmod a.denominator, ha⟩
termination_by a.denominator.natAbs + b.denominator.natAbs
decreasing_by
  have ha := natAbs_fmod_lt a.numerator a.denominator_ne_zero
  have hb := natAbs_fmod_lt b.numerator b.denominator_ne_zero
  omega

/-- Neither offset comes after the other. -/
def same (a b : Offset) : Bool := compare a b = .eq

/-- `a` does not come after `b`. -/
def atMost (a b : Offset) : Bool := (compare a b).isLE

/-- The same ratio in lowest terms with a positive denominator. -/
def reduced (a : Offset) : Offset :=
  let divisor := (Int.gcd a.numerator a.denominator : Int)
  let n := a.numerator / divisor
  let d := a.denominator / divisor
  if h : d = 0 then a else if d < 0 then ⟨-n, -d, by omega⟩ else ⟨n, d, h⟩

end Offset

end BrailleScore
