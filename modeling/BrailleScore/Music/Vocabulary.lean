import BrailleScore.Text.Blank
import BrailleScore.Fault

/-! Closed vocabularies: the words that a timeline may use for the kinds of one subject. -/

namespace BrailleScore

/-- The words for the values of `α`. One value may have several words. -/
structure Vocabulary (α : Type) where
  subject : String
  words : List (String × α)

namespace Vocabulary

/-- The value that `text` names, white space around it aside. -/
def read (v : Vocabulary α) (text : String) : Except Fault α :=
  match v.words.lookup (Text.trim text) with
  | some a => .ok a
  | none => Fault.raise (.unknownWord v.subject (Text.trim text))

end Vocabulary

end BrailleScore
