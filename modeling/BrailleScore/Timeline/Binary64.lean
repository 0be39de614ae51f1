/-! Quotients of whole numbers in binary64 arithmetic, and their rounding to whole numbers. -/

namespace BrailleScore.Binary64

open Float.Model

/-- The quotient of two whole numbers, each of them a binary64 number first. -/
def quotient (sum : Int32) (count : Nat) : UnpackedFloat :=
  .div .binary64 (.ofInt32 .binary64 sum) (.ofNat .binary64 count)

/-- The natural number nearest to `mantissa * 2 ^ exponent`, the greater one for a half. -/
def nearestNat (mantissa : Nat) (exponent : Int) : Nat :=
  let halves := mantissa <<< (exponent.toNat + 1) >>> (-exponent).toNat
  (halves + 1) / 2

/-- The nearest whole number. A half goes away from zero. -/
def roundAway : UnpackedFloat → UnpackedFloat
  | .finite sign mantissa exponent _ =>
    .ofInt .binary64 (sign.apply (nearestNat mantissa exponent))
  | x => x

end BrailleScore.Binary64
