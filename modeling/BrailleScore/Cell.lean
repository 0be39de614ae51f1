import BrailleScore.Text.Decimal

/-!
Braille cells. A cell is a set of raised dots, kept as a mask in which dot `d` is bit `d - 1`; a
dot pattern writes the dots of a cell as the digits of a decimal number, so 126 is the cell with
the dots 1, 2 and 6.
-/

namespace BrailleScore

/-- A cell of up to eight dots. -/
structure Cell where
  mask : BitVec 8
deriving DecidableEq, Repr

namespace Cell

/-- The code point of the cell without dots; the cells follow in the order of their masks. -/
def base : Nat := 0x2800

def char (c : Cell) : Char := Char.ofNat (base + c.mask.toNat)

def ofChar? (c : Char) : Option Cell :=
  if base ≤ c.toNat ∧ c.toNat < base + 256 then some ⟨BitVec.ofNat 8 (c.toNat - base)⟩ else none

def hasDot (c : Cell) (dot : Nat) : Bool := 1 ≤ dot && c.mask.getLsbD (dot - 1)

/-- Neither of the dots 7 and 8 is raised. -/
def isSixDot (c : Cell) : Bool := !c.hasDot 7 && !c.hasDot 8

/-- Some dot of the left column is raised. -/
def touchesLeft (c : Cell) : Bool := c.hasDot 1 || c.hasDot 2 || c.hasDot 3

/-- The digits that name a dot of a six-dot cell. -/
def isDot (d : Fin 10) : Bool := 1 ≤ d.val && d.val ≤ 6

/-- The mask of a single dot, empty for a digit that names none. -/
def dotMask (d : Fin 10) : BitVec 8 := if isDot d then 1#8 <<< (d.val - 1) else 0#8

def isPattern (pattern : Nat) : Bool := (Decimal.places pattern).all isDot

/-- The cell of a dot pattern. Digits that name no dot raise nothing. -/
def ofPattern (pattern : Nat) : Cell :=
  ⟨(Decimal.places pattern).foldr (fun d mask => dotMask d ||| mask) 0#8⟩

/-- The cell of a dot pattern all of whose digits name dots. -/
def ofPattern? (pattern : Nat) : Option Cell :=
  if isPattern pattern then some (ofPattern pattern) else none

/-- The dots 1 to 6 of a cell, as a pattern with increasing digits. -/
def pattern (c : Cell) : Nat :=
  Decimal.ofDigits ((List.finRange 10).filter fun d => isDot d && c.hasDot d.val)

/-- The text of a row of cells given by their patterns. -/
def row (patterns : List Nat) : List Char := patterns.map fun p => (ofPattern p).char

theorem toNat_char (c : Cell) : c.char.toNat = base + c.mask.toNat := by
  have h := c.mask.isLt
  have hv : (base + c.mask.toNat).isValidChar := by
    left
    simp only [base]
    omega
  rw [char, Char.ofNat, dif_pos hv]
  rfl

@[simp] theorem ofChar?_char (c : Cell) : ofChar? c.char = some c := by
  have h := c.mask.isLt
  simp only [ofChar?, toNat_char]
  rw [if_pos (by omega), Nat.add_sub_cancel_left, BitVec.ofNat_toNat, BitVec.setWidth_eq]

theorem ofChar?_eq_some {c : Char} {cell : Cell} : ofChar? c = some cell ↔ c = cell.char := by
  constructor
  · intro h
    unfold ofChar? at h
    obtain ⟨⟨hle, hlt⟩, hcell⟩ := Option.ite_none_right_eq_some.mp h
    have hmask : (BitVec.ofNat 8 (c.toNat - base)).toNat = c.toNat - base := by
      rw [BitVec.toNat_ofNat, Nat.mod_eq_of_lt (by omega)]
    rw [← Option.some.inj hcell, char, hmask, Nat.add_sub_of_le hle, Char.ofNat_toNat]
  · rintro rfl
    exact ofChar?_char cell

end Cell

end BrailleScore
