import BrailleScore.Sign.Glyph

/-!
Abbreviated repetition. Up to three copies of an atom are written out; from four on, the number
of copies is written in front of a single one.
-/

namespace BrailleScore

namespace Repetition

/-- `n` copies of `atom`. -/
def write (atom : List Char) (n : Nat) : List Char :=
  if n < 4 then (List.replicate n atom).flatten
  else Glyph.numberSign.text ++ Glyph.upperNumber n ++ atom

end Repetition

/-- A run of equal items. -/
structure Run (α : Type) where
  item : α
  length : Nat
deriving DecidableEq, Repr

namespace Run

variable {α : Type}

/-- The items that runs stand for. -/
def expand (runs : List (Run α)) : List α := runs.flatMap fun r => List.replicate r.length r.item

variable [BEq α]

/-- The runs of the items that follow `n` equal ones, the first of which is `a`. -/
def groupFrom (a : α) (n : Nat) : List α → List (Run α)
  | [] => [⟨a, n⟩]
  | b :: rest => if a == b then groupFrom a (n + 1) rest else ⟨a, n⟩ :: groupFrom b 1 rest

/-- The maximal runs of equal neighbours, each with the first of its items. -/
def group : List α → List (Run α)
  | [] => []
  | a :: rest => groupFrom a 1 rest

@[simp] theorem group_nil : group ([] : List α) = [] := rfl

theorem expand_groupFrom [LawfulBEq α] (a : α) (n : Nat) (rest : List α) :
    expand (groupFrom a n rest) = List.replicate n a ++ rest := by
  induction rest generalizing a n with
  | nil => simp [groupFrom, expand]
  | cons b rest ih =>
    rw [groupFrom]
    split
    · next h => simp [ih, eq_of_beq h, List.replicate_succ']
    · rw [expand, List.flatMap_cons, ← expand, ih]
      rfl

/-- The runs of a list stand for that list. -/
theorem expand_group [LawfulBEq α] (items : List α) : expand (group items) = items := by
  cases items with
  | nil => rfl
  | cons a rest => exact expand_groupFrom a 1 rest

/-- The text of the items with every run abbreviated. -/
def compress (atom : α → List Char) (items : List α) : List Char :=
  (group items).flatMap fun r => Repetition.write (atom r.item) r.length

end Run

end BrailleScore
