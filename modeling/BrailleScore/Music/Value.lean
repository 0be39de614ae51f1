import BrailleScore.Music.Vocabulary

/-! Rhythmic values. -/

namespace BrailleScore

inductive NoteValue where
  | whole | half | quarter | eighth | sixteenth | thirtySecond | sixtyFourth | hundredTwentyEighth
deriving DecidableEq, Repr

namespace NoteValue

def vocabulary : Vocabulary NoteValue where
  subject := "note value"
  words := [("whole", whole), ("half", half), ("quarter", quarter), ("eighth", eighth),
    ("16th", sixteenth), ("32nd", thirtySecond), ("64th", sixtyFourth),
    ("128th", hundredTwentyEighth)]

def name : NoteValue → String
  | whole => "Whole"
  | half => "Half"
  | quarter => "Quarter"
  | eighth => "Eighth"
  | sixteenth => "Sixteenth"
  | thirtySecond => "ThirtySecond"
  | sixtyFourth => "SixtyFourth"
  | hundredTwentyEighth => "OneHundredTwentyEighth"

end NoteValue

/-- A note value with its augmentation dots. -/
structure Duration where
  base : NoteValue
  dots : Nat := 0
deriving DecidableEq, Repr

end BrailleScore
